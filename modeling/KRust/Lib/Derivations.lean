import Mathlib.Computability.ContextFreeGrammar

/-!
Derivations of context-free rules: what derives the empty string is the least set that the rules
without terminals close, and what a derivation can begin with is reached through the nonterminals
that only nullable ones stand before.
-/

namespace KRust.Lib

open Relation (ReflTransGen)

variable {T N : Type}

abbrev Word (T N : Type) := List (Symbol T N)

/-- The rules rewrite one string into another. -/
def Rewrites (rules : ContextFreeRule T N → Prop) : List (Symbol T N) → List (Symbol T N) → Prop :=
  ReflTransGen fun u v => ∃ rule, rules rule ∧ rule.Rewrites u v

namespace Rewrites

variable {rules : ContextFreeRule T N → Prop} {u v w : List (Symbol T N)}

theorem of_rule {rule : ContextFreeRule T N} (h : rules rule) :
    Rewrites rules [.nonterminal rule.input] rule.output :=
  .single ⟨rule, h, .input_output⟩

theorem append_right (h : Rewrites rules u v) (p : List (Symbol T N)) :
    Rewrites rules (u ++ p) (v ++ p) :=
  ReflTransGen.lift (· ++ p) (fun _ _ ⟨rule, hrule, hstep⟩ => ⟨rule, hrule, hstep.append_right p⟩)
    _ _ h

end Rewrites

section Nullable

variable {rules : ContextFreeRule T N → Prop} {u v : List (Symbol T N)}

/-- The nonterminals that derive the empty string. -/
def Nullable (rules : ContextFreeRule T N → Prop) (n : N) : Prop :=
  Rewrites rules [.nonterminal n] []

/-- A symbol that can be left out. -/
def Optional (rules : ContextFreeRule T N → Prop) : Symbol T N → Prop
  | .terminal _ => False
  | .nonterminal n => Nullable rules n

@[simp] theorem optional_terminal {a : T} : ¬ Optional rules (.terminal a) := id

@[simp] theorem optional_nonterminal {n : N} :
    Optional rules (.nonterminal n) ↔ Nullable rules n := Iff.rfl

theorem rewrites_nil_of_optional (h : ∀ x ∈ u, Optional rules x) : Rewrites rules u [] := by
  induction u with
  | nil => exact .refl
  | cons x u ih =>
    obtain ⟨hx, hu⟩ := List.forall_mem_cons.mp h
    cases x with
    | terminal a => exact hx.elim
    | nonterminal n =>
      have hfirst : Rewrites rules (.nonterminal n :: u) u := Rewrites.append_right hx u
      exact hfirst.trans (ih hu)

/-- A string vanishes when each of its symbols can be left out. -/
theorem rewrites_nil_iff : Rewrites rules u [] ↔ ∀ x ∈ u, Optional rules x := by
  refine ⟨fun h => ?_, rewrites_nil_of_optional⟩
  induction h using ReflTransGen.head_induction_on with
  | refl => simp
  | head hstep _ ih =>
    obtain ⟨rule, hrule, hrewrites⟩ := hstep
    obtain ⟨p, q, rfl, rfl⟩ := ContextFreeRule.rewrites_iff.mp hrewrites
    simp only [List.mem_append, or_imp, forall_and, List.forall_mem_singleton] at ih ⊢
    refine ⟨⟨ih.1.1, ?_⟩, ih.2⟩
    exact (Rewrites.of_rule hrule).trans (rewrites_nil_of_optional ih.1.2)

/-- The nullable nonterminals are those whose rules have nullable nonterminals only. -/
theorem nullable_iff {n : N} : Nullable rules n ↔
    ∃ rule, rules rule ∧ rule.input = n ∧ ∀ x ∈ rule.output, Optional rules x := by
  constructor
  · intro h
    rcases h.cases_head with heq | ⟨v, ⟨rule, hrule, hstep⟩, hrest⟩
    · cases heq
    · obtain ⟨p, q, hsingle, rfl⟩ := ContextFreeRule.rewrites_iff.mp hstep
      rw [List.append_assoc, List.singleton_append, eq_comm, List.append_eq_singleton_iff] at hsingle
      obtain ⟨rfl, hsplit⟩ | ⟨rfl, hsplit⟩ := hsingle
      · cases hsplit
        rw [List.nil_append, List.append_nil] at hrest
        exact ⟨rule, hrule, rfl, rewrites_nil_iff.mp hrest⟩
      · cases hsplit
  · rintro ⟨rule, hrule, rfl, hall⟩
    exact (Rewrites.of_rule hrule).trans (rewrites_nil_of_optional hall)

/-- A set of nonterminals that the rules without terminals close. -/
theorem Nullable.least (set : N → Prop)
    (hset : ∀ rule, rules rule → (∀ x ∈ rule.output, ∃ n, x = .nonterminal n ∧ set n) →
      set rule.input) {n : N} (h : Nullable rules n) : set n := by
  have hall : ∀ u, Rewrites rules u [] → ∀ x ∈ u, ∃ n, x = .nonterminal n ∧ set n := by
    intro u hu
    induction hu using ReflTransGen.head_induction_on with
    | refl => simp
    | head hstep _ ih =>
      obtain ⟨rule, hrule, hrewrites⟩ := hstep
      obtain ⟨p, q, rfl, rfl⟩ := ContextFreeRule.rewrites_iff.mp hrewrites
      simp only [List.mem_append, or_imp, forall_and, List.forall_mem_singleton] at ih ⊢
      exact ⟨⟨ih.1.1, rule.input, rfl, hset rule hrule ih.1.2⟩, ih.2⟩
  obtain ⟨m, hm, hset⟩ := hall _ h _ (List.mem_singleton_self _)
  cases hm
  exact hset

end Nullable

section Beginnings

variable {rules : ContextFreeRule T N → Prop} {u v : List (Symbol T N)} {t : T}

/-- A string derives one that begins with a terminal. -/
def Begins (rules : ContextFreeRule T N → Prop) (u : List (Symbol T N)) (t : T) : Prop :=
  ∃ rest, Rewrites rules u (.terminal t :: rest)

/-- A symbol of a string with only symbols before it that can be left out. -/
def Leading (rules : ContextFreeRule T N → Prop) (u : List (Symbol T N)) (x : Symbol T N) : Prop :=
  ∃ p q, u = p ++ x :: q ∧ ∀ y ∈ p, Optional rules y

theorem leading_nil {x : Symbol T N} : ¬ Leading rules [] x := by
  rintro ⟨p, q, hsplit, -⟩
  simp at hsplit

theorem leading_cons {x y : Symbol T N} :
    Leading rules (x :: u) y ↔ x = y ∨ Optional rules x ∧ Leading rules u y := by
  constructor
  · rintro ⟨p, q, hsplit, hp⟩
    rcases List.cons_eq_append_iff.mp hsplit with ⟨rfl, heq⟩ | ⟨p', rfl, heq⟩
    · cases heq
      exact .inl rfl
    · obtain ⟨hx, hp⟩ := List.forall_mem_cons.mp hp
      exact .inr ⟨hx, p', q, heq, hp⟩
  · rintro (rfl | ⟨hx, p, q, rfl, hp⟩)
    · exact ⟨[], u, rfl, by simp⟩
    · exact ⟨x :: p, q, rfl, List.forall_mem_cons.mpr ⟨hx, hp⟩⟩

theorem leading_terminal_cons {a : T} {x : Symbol T N} :
    Leading rules (.terminal a :: u) x ↔ .terminal a = x := by
  rw [leading_cons]
  exact or_iff_left fun h => h.1

theorem leading_nonterminal_cons {n : N} {x : Symbol T N} :
    Leading rules (.nonterminal n :: u) x ↔
      .nonterminal n = x ∨ Nullable rules n ∧ Leading rules u x := leading_cons

theorem leading_append {y : Symbol T N} : Leading rules (u ++ v) y ↔
    Leading rules u y ∨ (∀ x ∈ u, Optional rules x) ∧ Leading rules v y := by
  induction u with
  | nil => simp [leading_nil]
  | cons x u ih =>
    rw [List.cons_append, leading_cons, leading_cons, ih, List.forall_mem_cons]
    tauto

/-- The nonterminals that can come first in what another derives in one step. -/
def Leads (rules : ContextFreeRule T N → Prop) (n m : N) : Prop :=
  ∃ rule, rules rule ∧ rule.input = n ∧ Leading rules rule.output (.nonterminal m)

/-- The terminals that can come first in what a nonterminal derives in one step. -/
def Starts (rules : ContextFreeRule T N → Prop) (n : N) (t : T) : Prop :=
  ∃ rule, rules rule ∧ rule.input = n ∧ Leading rules rule.output (.terminal t)

/-- A terminal starts what a nonterminal leads to. -/
def First (rules : ContextFreeRule T N → Prop) (n : N) (t : T) : Prop :=
  ∃ m, ReflTransGen (Leads rules) n m ∧ Starts rules m t

/-- A terminal leads a string, or it is first in what a nonterminal that leads it derives. -/
def FirstOf (rules : ContextFreeRule T N → Prop) (u : List (Symbol T N)) (t : T) : Prop :=
  Leading rules u (.terminal t) ∨ ∃ n, Leading rules u (.nonterminal n) ∧ First rules n t

theorem firstOf_append : FirstOf rules (u ++ v) t ↔
    FirstOf rules u t ∨ (∀ x ∈ u, Optional rules x) ∧ FirstOf rules v t := by
  simp only [FirstOf, leading_append, or_and_right, exists_or]
  constructor
  · rintro ((h | ⟨hu, h⟩) | ⟨n, h, hfirst⟩ | ⟨n, ⟨hu, h⟩, hfirst⟩)
    · exact .inl (.inl h)
    · exact .inr ⟨hu, .inl h⟩
    · exact .inl (.inr ⟨n, h, hfirst⟩)
    · exact .inr ⟨hu, .inr ⟨n, h, hfirst⟩⟩
  · rintro ((h | ⟨n, h, hfirst⟩) | ⟨hu, h | ⟨n, h, hfirst⟩⟩)
    · exact .inl (.inl h)
    · exact .inr (.inl ⟨n, h, hfirst⟩)
    · exact .inl (.inr ⟨hu, h⟩)
    · exact .inr (.inr ⟨n, ⟨hu, h⟩, hfirst⟩)

theorem firstOf_nil : ¬ FirstOf rules [] t := by
  rintro (h | ⟨n, h, -⟩)
  · exact leading_nil h
  · exact leading_nil h

theorem firstOf_nonterminal {n : N} : FirstOf rules [.nonterminal n] t ↔ First rules n t := by
  constructor
  · rintro (h | ⟨m, h, hfirst⟩)
    · rcases leading_cons.mp h with heq | ⟨-, h⟩
      · cases heq
      · exact (leading_nil h).elim
    · rcases leading_cons.mp h with heq | ⟨-, h⟩
      · cases heq
        exact hfirst
      · exact (leading_nil h).elim
  · exact fun h => .inr ⟨n, leading_cons.mpr (.inl rfl), h⟩

theorem firstOf_terminal_cons {a : T} : FirstOf rules (.terminal a :: u) t ↔ a = t := by
  constructor
  · rintro (h | ⟨m, h, -⟩)
    · cases leading_terminal_cons.mp h
      rfl
    · cases leading_terminal_cons.mp h
  · rintro rfl
    exact .inl (leading_terminal_cons.mpr rfl)

theorem firstOf_nonterminal_cons {n : N} : FirstOf rules (.nonterminal n :: u) t ↔
    First rules n t ∨ Nullable rules n ∧ FirstOf rules u t := by
  rw [← List.singleton_append, firstOf_append, firstOf_nonterminal, List.forall_mem_singleton]
  rfl

/-- What is first in the output of a rule is first in its input. -/
theorem first_of_rule {rule : ContextFreeRule T N} (hrule : rules rule)
    (h : FirstOf rules rule.output t) : First rules rule.input t := by
  rcases h with h | ⟨n, h, m, hreach, hstart⟩
  · exact ⟨rule.input, .refl, rule, hrule, rfl, h⟩
  · exact ⟨m, .head ⟨rule, hrule, rfl, h⟩ hreach, hstart⟩

theorem begins_of_leading {x : Symbol T N} (h : Leading rules u x) (hx : Begins rules [x] t) :
    Begins rules u t := by
  obtain ⟨p, q, rfl, hp⟩ := h
  obtain ⟨rest, hrest⟩ := hx
  refine ⟨rest ++ q, ?_⟩
  have hdrop : Rewrites rules (p ++ x :: q) (x :: q) :=
    Rewrites.append_right (rewrites_nil_of_optional hp) (x :: q)
  exact hdrop.trans (Rewrites.append_right hrest q)

theorem begins_of_first {n : N} (h : First rules n t) : Begins rules [.nonterminal n] t := by
  obtain ⟨m, hreach, hstart⟩ := h
  induction hreach using ReflTransGen.head_induction_on with
  | refl =>
    obtain ⟨rule, hrule, rfl, hleading⟩ := hstart
    obtain ⟨rest, hrest⟩ := begins_of_leading hleading ⟨[], .refl⟩
    exact ⟨rest, (Rewrites.of_rule hrule).trans hrest⟩
  | head hstep _ ih =>
    obtain ⟨rule, hrule, rfl, hleading⟩ := hstep
    obtain ⟨rest, hrest⟩ := begins_of_leading hleading ih
    exact ⟨rest, (Rewrites.of_rule hrule).trans hrest⟩

/-- A derivation of a string begins with what is first in it. -/
theorem begins_iff : Begins rules u t ↔ FirstOf rules u t := by
  constructor
  · rintro ⟨rest, h⟩
    induction h using ReflTransGen.head_induction_on with
    | refl => exact .inl ⟨[], rest, rfl, by simp⟩
    | head hstep _ ih =>
      obtain ⟨rule, hrule, hrewrites⟩ := hstep
      obtain ⟨p, q, rfl, rfl⟩ := ContextFreeRule.rewrites_iff.mp hrewrites
      rw [List.append_assoc, firstOf_append, firstOf_append] at ih ⊢
      rw [firstOf_nonterminal]
      refine ih.imp id fun ⟨hp, h⟩ => ⟨hp, h.imp (first_of_rule hrule) fun ⟨hout, hq⟩ => ⟨?_, hq⟩⟩
      rw [List.forall_mem_singleton]
      exact (Rewrites.of_rule hrule).trans (rewrites_nil_of_optional hout)
  · rintro (h | ⟨n, h, hfirst⟩)
    · exact begins_of_leading h ⟨[], .refl⟩
    · exact begins_of_leading h (begins_of_first hfirst)

end Beginnings

end KRust.Lib
