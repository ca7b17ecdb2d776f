import Mathlib.Data.List.Forall2
import Mathlib.Logic.Function.Basic

/-!
Trees with names and binders: the names free in a tree, the names its binders bind, and the
replacement of a free name. A replacement that no binder interferes with means what the tree means
where the name has the meaning of the replacement.
-/

namespace KRust.Lib

/-- Trees whose nodes have labels. The label says whether the node is a name, and which name the
node binds in all that is below it. -/
structure Binding (T V L : Type) where
  label : T → L
  children : T → List T
  leaf : L → Option V
  leaf_children : ∀ t v, leaf (label t) = some v → children t = []
  binder : L → Option V
  induct : ∀ {P : T → Prop}, (∀ t, (∀ c ∈ children t, P c) → P t) → ∀ t, P t

namespace Binding

variable {T V L : Type} (b : Binding T V L)

/-- A name occurs where nothing above binds it. -/
inductive Free (v : V) : T → Prop
  | leaf {t : T} (h : b.leaf (b.label t) = some v) : Free v t
  | under {t c : T} (hc : c ∈ b.children t) (hv : b.binder (b.label t) ≠ some v)
    (h : Free v c) : Free v t

inductive Binds (v : V) : T → Prop
  | here {t : T} (h : b.binder (b.label t) = some v) : Binds v t
  | under {t c : T} (hc : c ∈ b.children t) (h : Binds v c) : Binds v t

/-- The tree with another for each free occurrence of a name. -/
inductive Replaced (v : V) (r : T) : T → T → Prop
  | leaf {t : T} (h : b.leaf (b.label t) = some v) : Replaced v r t r
  | bound {t : T} (hleaf : b.leaf (b.label t) ≠ some v) (h : b.binder (b.label t) = some v) :
    Replaced v r t t
  | node {t t' : T} (hleaf : b.leaf (b.label t) ≠ some v) (hv : b.binder (b.label t) ≠ some v)
    (hlabel : b.label t' = b.label t)
    (hchildren : List.Forall₂ (Replaced v r) (b.children t) (b.children t')) : Replaced v r t t'

/-- No binder binds the name, nor a name that is free in what replaces it. -/
def Clear (v : V) (r t : T) : Prop := ∀ u, b.Binds u t → u ≠ v ∧ ¬ b.Free u r

/-- A meaning of trees, where a node gives its own to those of what is below it, and these depend
on what the bound name means. -/
structure Meaning [DecidableEq V] (b : Binding T V L) (D : Type) where
  eval : (V → D) → T → D
  node : L → (D → List D) → D
  eval_leaf : ∀ ρ t v, b.leaf (b.label t) = some v → eval ρ t = ρ v
  eval_node : ∀ ρ t, b.leaf (b.label t) = none → eval ρ t = node (b.label t) fun x =>
    (b.children t).map (eval ((b.binder (b.label t)).elim ρ fun v => Function.update ρ v x))

variable {b}

theorem Clear.below {v : V} {r t c : T} (h : b.Clear v r t) (hc : c ∈ b.children t) :
    b.Clear v r c := fun u hu => h u (.under hc hu)

theorem Replaced.exists_new {v : V} {r : T} {cs cs' : List T}
    (h : List.Forall₂ (b.Replaced v r) cs cs') {c : T} (hc : c ∈ cs) :
    ∃ c' ∈ cs', b.Replaced v r c c' := by
  induction h with
  | nil => cases hc
  | @cons d d' cs cs' hhead _ ih =>
    rcases List.mem_cons.mp hc with rfl | hc
    · exact ⟨d', List.mem_cons_self, hhead⟩
    · obtain ⟨c', hmem, hreplaced⟩ := ih hc
      exact ⟨c', List.mem_cons_of_mem _ hmem, hreplaced⟩

theorem Replaced.exists_old {v : V} {r : T} {cs cs' : List T}
    (h : List.Forall₂ (b.Replaced v r) cs cs') {c' : T} (hc' : c' ∈ cs') :
    ∃ c ∈ cs, b.Replaced v r c c' := by
  induction h with
  | nil => cases hc'
  | @cons d d' cs cs' hhead _ ih =>
    rcases List.mem_cons.mp hc' with rfl | hc'
    · exact ⟨d, List.mem_cons_self, hhead⟩
    · obtain ⟨c, hmem, hreplaced⟩ := ih hc'
      exact ⟨c, List.mem_cons_of_mem _ hmem, hreplaced⟩

/-- What is free after a replacement that no binder is in the way of. -/
theorem Replaced.free_iff {v : V} {r t t' : T} (h : b.Replaced v r t t') (hclear : b.Clear v r t)
    (u : V) : b.Free u t' ↔ u ≠ v ∧ b.Free u t ∨ b.Free v t ∧ b.Free u r := by
  induction t using b.induct generalizing t' with
  | _ t ih =>
    cases h with
    | leaf hleaf =>
      constructor
      · exact fun hu => .inr ⟨.leaf hleaf, hu⟩
      · rintro (⟨hne, hu⟩ | ⟨-, hu⟩)
        · cases hu with
          | leaf hname => exact absurd (Option.some.inj (hname.symm.trans hleaf)) hne
          | under hc =>
            rw [b.leaf_children t v hleaf] at hc
            cases hc
        · exact hu
    | bound hleaf hbinder => exact absurd rfl (hclear v (.here hbinder)).1
    | node hleaf hv hlabel hchildren =>
      constructor
      · intro hu
        cases hu with
        | leaf hname =>
          rw [hlabel] at hname
          exact .inl ⟨fun heq => hleaf (heq ▸ hname), .leaf hname⟩
        | under hc' hbinder hu =>
          rw [hlabel] at hbinder
          obtain ⟨c, hc, hreplaced⟩ := exists_old hchildren hc'
          rcases (ih c hc hreplaced (hclear.below hc)).mp hu with ⟨hne, hold⟩ | ⟨hfree, hu⟩
          · exact .inl ⟨hne, .under hc hbinder hold⟩
          · exact .inr ⟨.under hc hv hfree, hu⟩
      · rintro (⟨hne, hu⟩ | ⟨hfree, hu⟩)
        · cases hu with
          | leaf hname => exact .leaf (hlabel ▸ hname)
          | under hc hbinder hu =>
            obtain ⟨c', hc', hreplaced⟩ := exists_new hchildren hc
            exact .under hc' (hlabel ▸ hbinder)
              ((ih _ hc hreplaced (hclear.below hc)).mpr (.inl ⟨hne, hu⟩))
        · cases hfree with
          | leaf hname => exact absurd hname hleaf
          | under hc _ hfree =>
            obtain ⟨c', hc', hreplaced⟩ := exists_new hchildren hc
            have hbinder : b.binder (b.label t) ≠ some u := fun heq => (hclear u (.here heq)).2 hu
            exact .under hc' (hlabel ▸ hbinder)
              ((ih _ hc hreplaced (hclear.below hc)).mpr (.inr ⟨hfree, hu⟩))

variable [DecidableEq V] {D : Type} (m : b.Meaning D)

/-- What a tree means depends on its free names only. -/
theorem Meaning.eval_congr {ρ ρ' : V → D} {t : T} (h : ∀ v, b.Free v t → ρ v = ρ' v) :
    m.eval ρ t = m.eval ρ' t := by
  induction t using b.induct generalizing ρ ρ' with
  | _ t ih =>
    cases hleaf : b.leaf (b.label t) with
    | some v => rw [m.eval_leaf ρ t v hleaf, m.eval_leaf ρ' t v hleaf, h v (.leaf hleaf)]
    | none =>
      rw [m.eval_node ρ t hleaf, m.eval_node ρ' t hleaf]
      congr 1
      funext x
      refine List.map_congr_left fun c hc => ih c hc fun v hv => ?_
      cases hbinder : b.binder (b.label t) with
      | none => exact h v (.under hc (by simp [hbinder]) hv)
      | some u =>
        by_cases huv : v = u
        · subst huv
          simp
        · have hfree : b.Free v t := .under hc (by simpa [hbinder] using Ne.symm huv) hv
          simp [huv, h v hfree]

/-- A replacement with no binder in its way. -/
theorem Replaced.eval {v : V} {r t t' : T} (h : b.Replaced v r t t') (hclear : b.Clear v r t)
    (ρ : V → D) : m.eval ρ t' = m.eval (Function.update ρ v (m.eval ρ r)) t := by
  induction t using b.induct generalizing t' ρ with
  | _ t ih =>
    cases h with
    | leaf hleaf => rw [m.eval_leaf _ t v hleaf, Function.update_self]
    | bound hleaf hbinder => exact absurd rfl (hclear v (.here hbinder)).1
    | node hleaf hv hlabel hchildren =>
      cases hname : b.leaf (b.label t) with
      | some w =>
        have hne : w ≠ v := fun heq => hleaf (heq ▸ hname)
        rw [m.eval_leaf ρ t' w (hlabel ▸ hname), m.eval_leaf _ t w hname,
          Function.update_of_ne hne]
      | none =>
        rw [m.eval_node ρ t' (hlabel ▸ hname), m.eval_node _ t hname, hlabel]
        congr 1
        funext x
        -- The bound name is neither the one replaced nor free in the replacement.
        have hbelow : ∀ c ∈ b.children t, ∀ c', b.Replaced v r c c' →
            m.eval ((b.binder (b.label t)).elim ρ fun u => Function.update ρ u x) c' =
              m.eval ((b.binder (b.label t)).elim (Function.update ρ v (m.eval ρ r)) fun u =>
                Function.update (Function.update ρ v (m.eval ρ r)) u x) c := by
          intro c hc c' hreplaced
          rw [ih c hc hreplaced (hclear.below hc)]
          cases hbinder : b.binder (b.label t) with
          | none => rfl
          | some u =>
            obtain ⟨hne, hnot⟩ := hclear u (.here hbinder)
            have hmeaning : m.eval (Function.update ρ u x) r = m.eval ρ r := by
              refine m.eval_congr fun w hw => Function.update_of_ne ?_ x ρ
              rintro rfl
              exact hnot hw
            rw [Option.elim_some, Option.elim_some, hmeaning, Function.update_comm hne]
        generalize b.children t = cs at hchildren hbelow
        generalize b.children t' = cs' at hchildren
        induction hchildren with
        | nil => rfl
        | @cons c c' cs cs' hhead _ ihtail =>
          rw [List.forall_mem_cons] at hbelow
          rw [List.map_cons, List.map_cons, hbelow.1 c' hhead, ihtail hbelow.2]

end Binding

end KRust.Lib
