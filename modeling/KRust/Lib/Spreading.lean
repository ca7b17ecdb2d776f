import KRust.Lib.Frontier
import KRust.Lib.Worklist

/-!
Worklists that spread marks over elements through names: an element that is taken from the queue
pushes names, and a name that is pushed for the first time marks the elements that an index lists
for it. What is marked in the end is what the seeds reach.
-/

set_option linter.unusedSectionVars false

namespace KRust.Lib

open Relation (ReflTransGen)

/-- The marked elements, those of them that wait, and the names that were pushed. -/
structure Spread (α β σ : Type) where
  state : σ
  marked : α → Bool
  queue : List α
  names : List β

namespace Spread

section Turns

variable {α β σ : Type} [DecidableEq α] [DecidableEq β]

def mark (spread : Spread α β σ) (a : α) : Spread α β σ :=
  if spread.marked a then spread
  else { spread with
    marked := Function.update spread.marked a true
    queue := spread.queue ++ [a] }

/-- The elements that an index lists for a name. -/
def listed (index : List (β × α)) (name : β) : List α :=
  (index.filter fun entry => entry.1 = name).map Prod.snd

def push (index : List (β × α)) (spread : Spread α β σ) (name : β) : Spread α β σ :=
  if name ∈ spread.names then spread
  else (listed index name).foldl mark { spread with names := spread.names ++ [name] }

/-- The first element of the queue pushes its names. -/
def turn (index : List (β × α)) (pushes : α → σ → List β × σ) (spread : Spread α β σ) :
    Spread α β σ ⊕ Spread α β σ :=
  match spread.queue with
  | [] => .inl spread
  | a :: queue =>
    let pushed := pushes a spread.state
    .inr (pushed.1.foldl (push index) { spread with state := pushed.2, queue := queue })

variable [Fintype α]

/-- The elements that are not marked, and those that wait. -/
def weight (spread : Spread α β σ) : Nat :=
  unmarkedWeight (fun _ => 1) spread.marked + spread.queue.length

theorem weight_mark (spread : Spread α β σ) (a : α) : (spread.mark a).weight = spread.weight := by
  rw [mark]
  split
  · rfl
  · next hfresh =>
    have hmark := unmarkedWeight_mark (fun _ => 1) spread.marked (Bool.eq_false_iff.mpr hfresh)
    simp only [weight, List.length_append, List.length_singleton]
    omega

theorem weight_foldl_mark (as : List α) (spread : Spread α β σ) :
    (as.foldl mark spread).weight = spread.weight := by
  induction as generalizing spread with
  | nil => rfl
  | cons a as ih => rw [List.foldl_cons, ih, weight_mark]

theorem weight_foldl_push (index : List (β × α)) (names : List β) (spread : Spread α β σ) :
    (names.foldl (push index) spread).weight = spread.weight := by
  induction names generalizing spread with
  | nil => rfl
  | cons name names ih =>
    rw [List.foldl_cons, ih, push]
    split
    · rfl
    · rw [weight_foldl_mark]
      rfl

theorem weight_turn {index : List (β × α)} {pushes : α → σ → List β × σ}
    {spread next : Spread α β σ} (h : spread.turn index pushes = .inr next) :
    next.weight < spread.weight := by
  obtain ⟨state, marked, queue, names⟩ := spread
  cases queue with
  | nil => cases h
  | cons a queue =>
    rw [turn, Sum.inr.injEq] at h
    rw [← h, weight_foldl_push]
    simp [weight]

def loop (index : List (β × α)) (pushes : α → σ → List β × σ) :
    Loop (Spread α β σ) (Spread α β σ) where
  turn := turn index pushes
  ends := ⟨weight, fun _ _ => weight_turn⟩

/-- What some elements and some names mark, and the names pushed on the way. -/
def run (index : List (β × α)) (pushes : α → σ → List β × σ) (state : σ) (seeds : List α)
    (names : List β) : Spread α β σ :=
  (loop index pushes).run
    (names.foldl (push index) (seeds.foldl mark ⟨state, fun _ => false, [], []⟩))

end Turns

section Spreads

variable {α β σ : Type} [DecidableEq α] [DecidableEq β]

/-- What a mark and a push leave alone, and that the queue holds marked elements once each. -/
structure Queued (spread : Spread α β σ) : Prop where
  waits : ∀ a ∈ spread.queue, spread.marked a = true
  nodup : spread.queue.Nodup

theorem mem_listed {index : List (β × α)} {name : β} {a : α} :
    a ∈ listed index name ↔ (name, a) ∈ index := by
  simp [listed]

theorem mark_spec {spread : Spread α β σ} (h : spread.Queued) (a : α) :
    (spread.mark a).Queued ∧ (spread.mark a).state = spread.state ∧
      (spread.mark a).names = spread.names ∧
      (∀ b, (spread.mark a).marked b = true ↔ spread.marked b = true ∨ b = a) ∧
      ∀ b, b ∈ (spread.mark a).queue ↔ b ∈ spread.queue ∨ spread.marked b = false ∧ b = a := by
  rw [mark]
  split
  · next hmarked =>
    refine ⟨h, rfl, rfl, fun b => ?_, fun b => ?_⟩
    · exact ⟨.inl, fun hb => hb.elim id fun heq => heq ▸ hmarked⟩
    · refine ⟨.inl, fun hb => hb.elim id fun hnew => ?_⟩
      rw [hnew.2, hmarked] at hnew
      cases hnew.1
  · next hfresh =>
    have hfalse : spread.marked a = false := Bool.eq_false_iff.mpr hfresh
    have hnot : a ∉ spread.queue := fun hmem => hfresh (h.waits a hmem)
    refine ⟨⟨fun b hb => ?_, ?_⟩, rfl, rfl, fun b => ?_, fun b => ?_⟩
    · rw [mark_iff]
      rcases List.mem_append.mp hb with hb | hb
      · exact .inr (h.waits b hb)
      · exact .inl (List.mem_singleton.mp hb)
    · rw [List.nodup_append]
      refine ⟨h.nodup, List.nodup_singleton a, fun b hb c hc => ?_⟩
      rw [List.mem_singleton.mp hc]
      exact fun heq => hnot (heq ▸ hb)
    · rw [mark_iff, or_comm]
    · rw [List.mem_append, List.mem_singleton]
      refine or_congr_right ⟨fun heq => ⟨heq ▸ hfalse, heq⟩, And.right⟩

theorem foldl_mark_spec {spread : Spread α β σ} (h : spread.Queued) (as : List α) :
    (as.foldl mark spread).Queued ∧ (as.foldl mark spread).state = spread.state ∧
      (as.foldl mark spread).names = spread.names ∧
      (∀ b, (as.foldl mark spread).marked b = true ↔ spread.marked b = true ∨ b ∈ as) ∧
      ∀ b, b ∈ (as.foldl mark spread).queue ↔
        b ∈ spread.queue ∨ spread.marked b = false ∧ b ∈ as := by
  induction as generalizing spread with
  | nil => simp [h]
  | cons a as ih =>
    obtain ⟨hqueued, hstate, hnames, hmarked, hqueue⟩ := mark_spec h a
    obtain ⟨hqueued', hstate', hnames', hmarked', hqueue'⟩ := ih hqueued
    refine ⟨hqueued', hstate'.trans hstate, hnames'.trans hnames, fun b => ?_, fun b => ?_⟩
    · rw [List.foldl_cons, hmarked', hmarked, List.mem_cons, or_assoc]
    · rw [List.foldl_cons, hqueue', hqueue, List.mem_cons]
      have hfalse : (spread.mark a).marked b = false ↔ spread.marked b = false ∧ b ≠ a := by
        rw [← Bool.not_eq_true, hmarked, not_or, Bool.not_eq_true]
      rw [hfalse]
      tauto

/-- The elements listed for the names that were pushed are marked. -/
def Named (index : List (β × α)) (spread : Spread α β σ) : Prop :=
  ∀ name ∈ spread.names, ∀ a, (name, a) ∈ index → spread.marked a = true

/-- What pushing some names does. -/
structure Pushed (index : List (β × α)) (names : List β) (spread next : Spread α β σ) : Prop where
  queued : next.Queued
  named : Named index next
  state : next.state = spread.state
  names_iff : ∀ b, b ∈ next.names ↔ b ∈ spread.names ∨ b ∈ names
  marked_iff : ∀ a, next.marked a = true ↔
    spread.marked a = true ∨ ∃ name ∈ names, (name, a) ∈ index
  queue_iff : ∀ a, a ∈ next.queue ↔
    a ∈ spread.queue ∨ spread.marked a = false ∧ ∃ name ∈ names, (name, a) ∈ index

theorem push_spec {index : List (β × α)} {spread : Spread α β σ} (h : spread.Queued)
    (hnamed : Named index spread) (name : β) :
    Pushed index [name] spread (spread.push index name) := by
  rw [push]
  split
  · next hknown =>
    have hmarked : ∀ a, (∃ other ∈ [name], (other, a) ∈ index) → spread.marked a = true := by
      rintro a ⟨other, hother, hentry⟩
      rw [List.mem_singleton.mp hother] at hentry
      exact hnamed name hknown a hentry
    refine ⟨h, hnamed, rfl, fun b => ?_, fun a => ?_, fun a => ?_⟩
    · exact ⟨.inl, fun hb => hb.elim id fun heq => List.mem_singleton.mp heq ▸ hknown⟩
    · exact ⟨.inl, fun ha => ha.elim id (hmarked a)⟩
    · refine ⟨.inl, fun ha => ha.elim id fun hnew => ?_⟩
      rw [hmarked a hnew.2] at hnew
      cases hnew.1
  · have hstart : ({ spread with names := spread.names ++ [name] } : Spread α β σ).Queued :=
      ⟨h.waits, h.nodup⟩
    obtain ⟨hqueued, hstate, hnames, hmarked, hqueue⟩ :=
      foldl_mark_spec hstart (listed index name)
    have hentry : ∀ a, (∃ other ∈ [name], (other, a) ∈ index) ↔ a ∈ listed index name := by
      intro a
      rw [mem_listed]
      simp
    refine ⟨hqueued, fun other hother a ha => ?_, hstate, fun b => ?_, fun a => ?_, fun a => ?_⟩
    · rw [hnames, List.mem_append, List.mem_singleton] at hother
      rw [hmarked]
      rcases hother with hother | rfl
      · exact .inl (hnamed other hother a ha)
      · exact .inr (mem_listed.mpr ha)
    · rw [hnames, List.mem_append]
    · rw [hmarked, hentry]
    · rw [hqueue, hentry]

theorem foldl_push_spec {index : List (β × α)} {spread : Spread α β σ} (h : spread.Queued)
    (hnamed : Named index spread) (names : List β) :
    Pushed index names spread (names.foldl (push index) spread) := by
  induction names generalizing spread with
  | nil => exact ⟨h, hnamed, rfl, by simp, by simp, by simp⟩
  | cons name names ih =>
    have hfirst := push_spec h hnamed name
    have hrest := ih hfirst.queued hfirst.named
    have hsplit : ∀ a, (∃ other ∈ name :: names, (other, a) ∈ index) ↔
        (∃ other ∈ [name], (other, a) ∈ index) ∨ ∃ other ∈ names, (other, a) ∈ index := by
      intro a
      simp
    refine ⟨hrest.queued, hrest.named, hrest.state.trans hfirst.state, fun b => ?_, fun a => ?_,
      fun a => ?_⟩
    · rw [List.foldl_cons, hrest.names_iff, hfirst.names_iff, List.mem_singleton, List.mem_cons,
        or_assoc]
    · rw [List.foldl_cons, hrest.marked_iff, hfirst.marked_iff, hsplit, or_assoc]
    · rw [List.foldl_cons, hrest.queue_iff, hfirst.queue_iff, hsplit]
      simp only [← Bool.not_eq_true, hfirst.marked_iff]
      by_cases hfound : ∃ other ∈ [name], (other, a) ∈ index
      · simp only [hfound, and_true, or_true, not_true, false_and, or_false, true_or]
      · simp only [hfound, and_false, or_false, false_or]

end Spreads

section Reached

variable {α β σ : Type} [DecidableEq α] [DecidableEq β] {index : List (β × α)}
  {pushes : α → σ → List β × σ}

/-- An element leads to those listed for the names that it pushes. -/
def Leads (index : List (β × α)) (Pushes : α → β → Prop) (a b : α) : Prop :=
  ∃ name, Pushes a name ∧ (name, b) ∈ index

/-- The elements that are seeds, or listed for the names that are. -/
def Seeded (index : List (β × α)) (seeds : List α) (names : List β) (a : α) : Prop :=
  a ∈ seeds ∨ ∃ name ∈ names, (name, a) ∈ index

/-- What holds between two turns. -/
structure Spreading (index : List (β × α)) (Pushes : α → β → Prop) (Valid : σ → Prop)
    (seeds : List α) (names : List β) (spread : Spread α β σ) : Prop where
  queued : spread.Queued
  named : Named index spread
  valid : Valid spread.state
  frontier : Frontier (Leads index Pushes) (Seeded index seeds names)
    (fun a => spread.marked a = true) fun a => a ∈ spread.queue
  names_iff : ∀ b, b ∈ spread.names ↔
    b ∈ names ∨ ∃ a, spread.marked a = true ∧ a ∉ spread.queue ∧ Pushes a b

variable {Pushes : α → β → Prop} {Valid : σ → Prop} {seeds : List α} {names : List β}

theorem Spreading.start {state : σ} (hvalid : Valid state) :
    Spreading index Pushes Valid seeds names
      (names.foldl (push index) (seeds.foldl mark ⟨state, fun _ => false, [], []⟩)) := by
  have hempty : (⟨state, fun _ => false, [], []⟩ : Spread α β σ).Queued :=
    ⟨fun _ h => absurd h List.not_mem_nil, List.nodup_nil⟩
  obtain ⟨hqueued, hstate, hnames, hmarked, hqueue⟩ := foldl_mark_spec hempty seeds
  have hnamed : Named index
      (seeds.foldl mark (⟨state, fun _ => false, [], []⟩ : Spread α β σ)) := by
    intro name hname
    rw [hnames] at hname
    cases hname
  have hpushed := foldl_push_spec hqueued hnamed names
  have hseeded : ∀ a, (names.foldl (push index)
      (seeds.foldl mark ⟨state, fun _ => false, [], []⟩)).marked a = true ↔
        Seeded index seeds names a := by
    intro a
    rw [hpushed.marked_iff, hmarked, Seeded]
    simp
  have hwaits : ∀ a, a ∈ (names.foldl (push index)
      (seeds.foldl mark ⟨state, fun _ => false, [], []⟩)).queue ↔ Seeded index seeds names a := by
    intro a
    rw [hpushed.queue_iff, hqueue, Seeded]
    simp only [← Bool.not_eq_true, hmarked, List.not_mem_nil, Bool.false_eq_true, false_or]
    tauto
  refine ⟨hpushed.queued, hpushed.named, ?_, ?_, fun b => ?_⟩
  · rw [hpushed.state, hstate]
    exact hvalid
  · refine ⟨fun a ha => (hseeded a).mpr ha, fun a ha => ⟨a, (hseeded a).mp ha, .refl⟩,
      fun a ha => (hseeded a).mpr ((hwaits a).mp ha), fun a ha hnot => ?_⟩
    exact absurd ((hwaits a).mpr ((hseeded a).mp ha)) hnot
  · rw [hpushed.names_iff, hnames]
    refine ⟨fun hb => .inl (hb.resolve_left List.not_mem_nil), ?_⟩
    rintro (hb | ⟨a, ha, hnot, -⟩)
    · exact .inr hb
    · exact absurd ((hwaits a).mpr ((hseeded a).mp ha)) hnot

variable (hpushes : ∀ a state, Valid state → Valid (pushes a state).2 ∧
  ∀ b, b ∈ (pushes a state).1 ↔ Pushes a b)
include hpushes

theorem Spreading.turn {spread next : Spread α β σ}
    (h : Spreading index Pushes Valid seeds names spread)
    (hturn : spread.turn index pushes = .inr next) :
    Spreading index Pushes Valid seeds names next := by
  obtain ⟨state, marked, queue, known⟩ := spread
  cases queue with
  | nil => cases hturn
  | cons a queue =>
    rw [Spread.turn, Sum.inr.injEq] at hturn
    obtain ⟨hvalid, hpushed⟩ := hpushes a state h.valid
    have ha : marked a = true := h.queued.waits a List.mem_cons_self
    have hfresh : a ∉ queue := (List.nodup_cons.mp h.queued.nodup).1
    have hstart : (⟨(pushes a state).2, marked, queue, known⟩ : Spread α β σ).Queued :=
      ⟨fun b hb => h.queued.waits b (List.mem_cons_of_mem a hb),
        (List.nodup_cons.mp h.queued.nodup).2⟩
    have hspec := foldl_push_spec hstart h.named (pushes a state).1
    change Pushed index _ _ (List.foldl _ ⟨(pushes a state).2, marked, queue, known⟩ _) at hspec
    rw [hturn] at hspec
    have hleads : ∀ b, (∃ name ∈ (pushes a state).1, (name, b) ∈ index) ↔
        Leads index Pushes a b := by
      intro b
      simp only [Leads, hpushed]
    have hmarked : ∀ b, next.marked b = true ↔ marked b = true ∨ Leads index Pushes a b := by
      intro b
      rw [hspec.marked_iff, hleads]
    have hqueue : ∀ b, b ∈ next.queue ↔
        b ∈ queue ∨ marked b = false ∧ Leads index Pushes a b := by
      intro b
      rw [hspec.queue_iff, hleads]
    have hexpand := h.frontier.expand List.mem_cons_self hmarked
      (fun b hb => ((hqueue b).mp hb).imp (List.mem_cons_of_mem a) And.right)
      (fun b hb hne => (hqueue b).mpr (.inl ((List.mem_cons.mp hb).resolve_left hne)))
      fun b hlead hnot => (hqueue b).mpr (.inr ⟨Bool.eq_false_iff.mpr hnot, hlead⟩)
    refine ⟨hspec.queued, hspec.named, hspec.state ▸ hvalid, hexpand, fun b => ?_⟩
    -- The names of the element that was taken are pushed now, those of the others as before.
    rw [hspec.names_iff, h.names_iff, hpushed]
    constructor
    · rintro ((hb | ⟨c, hc, hnot, hcb⟩) | hb)
      · exact .inl hb
      · refine .inr ⟨c, (hmarked c).mpr (.inl hc), fun hwait => ?_, hcb⟩
        rcases (hqueue c).mp hwait with hwait | hwait
        · exact hnot (List.mem_cons_of_mem a hwait)
        · exact Bool.false_ne_true (hwait.1.symm.trans hc)
      · refine .inr ⟨a, (hmarked a).mpr (.inl ha), fun hwait => ?_, hb⟩
        rcases (hqueue a).mp hwait with hwait | hwait
        · exact hfresh hwait
        · exact Bool.false_ne_true (hwait.1.symm.trans ha)
    · rintro (hb | ⟨c, hc, hnot, hcb⟩)
      · exact .inl (.inl hb)
      · by_cases hca : c = a
        · exact .inr (hca ▸ hcb)
        · have hold : marked c = true := by
            rcases (hmarked c).mp hc with hc | hlead
            · exact hc
            · by_contra hfalse
              exact hnot ((hqueue c).mpr (.inr ⟨Bool.eq_false_iff.mpr hfalse, hlead⟩))
          refine .inl (.inr ⟨c, hold, fun hwait => ?_, hcb⟩)
          exact hnot ((hqueue c).mpr (.inl ((List.mem_cons.mp hwait).resolve_left hca)))

omit hpushes in
theorem turn_inl {spread result : Spread α β σ} (h : spread.turn index pushes = .inl result) :
    spread = result ∧ result.queue = [] := by
  obtain ⟨state, marked, queue, known⟩ := spread
  cases queue with
  | nil =>
    cases h
    exact ⟨rfl, rfl⟩
  | cons => cases h

variable [Fintype α]

/-- What is marked in the end is what the seeds reach, and the names are those given and those
that the marked elements push. -/
theorem run_spec {state : σ} (hvalid : Valid state) :
    Valid (run index pushes state seeds names).state ∧
      (∀ a, (run index pushes state seeds names).marked a = true ↔
        ∃ s, Seeded index seeds names s ∧ ReflTransGen (Leads index Pushes) s a) ∧
      ∀ b, b ∈ (run index pushes state seeds names).names ↔
        b ∈ names ∨ ∃ s a, Seeded index seeds names s ∧
          ReflTransGen (Leads index Pushes) s a ∧ Pushes a b := by
  have hrun : Spreading index Pushes Valid seeds names (run index pushes state seeds names) ∧
      (run index pushes state seeds names).queue = [] := by
    refine (loop index pushes).run_spec
      (Q := fun spread result => Spreading index Pushes Valid seeds names spread →
        Spreading index Pushes Valid seeds names result ∧ result.queue = [])
      (fun spread result hturn h => ?_) (fun spread next result hturn ih h =>
        ih (Spreading.turn hpushes h hturn)) _ (Spreading.start hvalid)
    obtain ⟨rfl, hqueue⟩ := turn_inl hturn
    exact ⟨h, hqueue⟩
  obtain ⟨hspread, hdone⟩ := hrun
  have hnone : ∀ a, a ∉ (run index pushes state seeds names).queue := by simp [hdone]
  have hmarked := hspread.frontier.marked_iff hnone
  refine ⟨hspread.valid, hmarked, fun b => ?_⟩
  rw [hspread.names_iff]
  refine or_congr_right ⟨?_, ?_⟩
  · rintro ⟨a, ha, -, hab⟩
    obtain ⟨s, hs, hreach⟩ := (hmarked a).mp ha
    exact ⟨s, a, hs, hreach, hab⟩
  · rintro ⟨s, a, hs, hreach, hab⟩
    exact ⟨a, (hmarked a).mpr ⟨s, hs, hreach⟩, hnone a, hab⟩

end Reached

end Spread

end KRust.Lib
