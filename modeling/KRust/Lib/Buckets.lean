import KRust.Lib.SortedMap

/-!
A queue that keeps its items in one queue per key and takes them from the queue of the greatest
key. It takes, of all the items that wait, the earliest of those with the greatest key.
-/

namespace KRust.Lib

section Takes

variable {K α : Type} [LinearOrder K] {key : α → K}

/-- Of the items that wait, in the order they were queued, the earliest of those with the greatest
key is taken. -/
inductive Takes (key : α → K) : List α → α → List α → Prop where
  | latest {front back : List α} {a : α} (hfront : ∀ b ∈ front, key b < key a)
      (hback : ∀ b ∈ back, key b ≤ key a) : Takes key (front ++ a :: back) a (front ++ back)

theorem Takes.mem_iff {waiting rest : List α} {a b : α} (h : Takes key waiting a rest) :
    b ∈ waiting ↔ b = a ∨ b ∈ rest := by
  cases h with
  | latest _ _ =>
    simp only [List.mem_append, List.mem_cons]
    tauto

theorem takes_of_map {β : Type} {f : β → α} {waiting : List β} {rest : List α} {a : α}
    (h : Takes key (waiting.map f) a rest) :
    ∃ b left, Takes (fun b => key (f b)) waiting b left ∧ f b = a ∧ left.map f = rest := by
  generalize hmap : waiting.map f = mapped at h
  cases h with
  | latest hfront hback =>
    obtain ⟨front, later, rfl, rfl, hlater⟩ := List.map_eq_append_iff.mp hmap
    obtain ⟨b, back, rfl, rfl, rfl⟩ := List.map_eq_cons_iff.mp hlater
    refine ⟨b, front ++ back, .latest ?_ ?_, rfl, List.map_append⟩
    · intro c hc
      exact hfront _ (List.mem_map_of_mem hc)
    · intro c hc
      exact hback _ (List.mem_map_of_mem hc)

/-- Any item that is found by a test that none with a smaller key passes is the one taken. -/
theorem Takes.eraseP {waiting rest : List α} {a : α} (h : Takes key waiting a rest)
    {found : α → Bool} (ha : found a = true) (hkey : ∀ b, found b = true → key b = key a) :
    waiting.eraseP found = rest := by
  cases h with
  | latest hfront _ =>
    rw [List.eraseP_append_right, List.eraseP_cons_of_pos ha]
    intro b hb hfound
    exact absurd (hkey b hfound) (hfront b hb).ne

theorem takes_of_filter {k : K} {a : α} {waiting queue : List α}
    (hle : ∀ b ∈ waiting, key b ≤ k) (hfilter : waiting.filter (key · = k) = a :: queue) :
    ∃ rest, Takes key waiting a rest ∧ rest.filter (key · = k) = queue ∧
      ∀ k', k' ≠ k → rest.filter (key · = k') = waiting.filter (key · = k') := by
  obtain ⟨front, back, rfl, hfront, ha, rfl⟩ := List.filter_eq_cons_iff.mp hfilter
  have ha : key a = k := of_decide_eq_true ha
  have hnone : front.filter (key · = k) = [] := List.filter_eq_nil_iff.mpr hfront
  refine ⟨front ++ back, .latest ?_ ?_, ?_, ?_⟩
  · intro b hb
    have hne : key b ≠ k := fun heq => hfront b hb (decide_eq_true heq)
    exact ha ▸ lt_of_le_of_ne (hle b (by simp [hb])) hne
  · intro b hb
    exact ha ▸ hle b (by simp [hb])
  · rw [List.filter_append, hnone, List.nil_append]
  · intro k' hk'
    have hne : key a ≠ k' := fun heq => hk' (heq ▸ ha)
    rw [List.filter_append, List.filter_append, List.filter_cons_of_neg (by simpa using hne)]

end Takes

namespace Buckets

variable {K β : Type} [LinearOrder K]

/-- A queue is there for a key if an item waits under it. -/
def stored (queue : List β) : Option (List β) := if queue.isEmpty then none else some queue

section Definitions

/-- The items queued last under their keys. -/
def pushBack (buckets : SortedMap K (List β)) (k : K) (item : β) : SortedMap K (List β) :=
  buckets.alter k fun queue => queue.getD [] ++ [item]

/-- The first item of the last queue, which goes with its last item. -/
def popFront (buckets : SortedMap K (List β)) : Option ((K × β) × SortedMap K (List β)) :=
  match buckets.entries.getLast? with
  | none => none
  | some (_, []) => none
  | some (k, item :: queue) =>
    some ((k, item), if queue.isEmpty then buckets.retain (· ≠ k) else buckets.insert k queue)

end Definitions

/-- The queue of a key. -/
def queue (waiting : List (K × β)) (k : K) : List β :=
  (waiting.filter fun item => item.1 = k).map Prod.snd

/-- The items that wait are in the queues of their keys, in the order they were queued. -/
def Holds (buckets : SortedMap K (List β)) (waiting : List (K × β)) : Prop :=
  ∀ k, buckets.get k = stored (queue waiting k)

variable {buckets : SortedMap K (List β)} {waiting : List (K × β)}

theorem holds_empty : Holds (SortedMap.empty : SortedMap K (List β)) [] := fun _ => rfl

theorem stored_eq_some {queue found : List β} (h : stored queue = some found) :
    found = queue ∧ queue ≠ [] := by
  unfold stored at h
  split at h
  · cases h
  · rename_i hne
    cases h
    exact ⟨rfl, by simpa using hne⟩

theorem getD_stored (queue : List β) : (stored queue).getD [] = queue := by
  cases queue <;> rfl

theorem Holds.mem {k : K} {found : List β} (h : Holds buckets waiting)
    (hget : buckets.get k = some found) : ∃ item, (k, item) ∈ waiting := by
  rw [h k] at hget
  obtain ⟨-, hne⟩ := stored_eq_some hget
  obtain ⟨item, hitem⟩ := List.exists_mem_of_ne_nil _ hne
  obtain ⟨⟨k', item⟩, hmem, rfl⟩ := List.mem_map.mp hitem
  obtain ⟨hwaits, hk⟩ := List.mem_filter.mp hmem
  obtain rfl : k' = k := of_decide_eq_true hk
  exact ⟨item, hwaits⟩

theorem Holds.get_of_mem {item : K × β} (h : Holds buckets waiting) (hitem : item ∈ waiting) :
    ∃ found, buckets.get item.1 = some found := by
  have hmem : item.2 ∈ queue waiting item.1 :=
    List.mem_map_of_mem (List.mem_filter.mpr ⟨hitem, decide_eq_true rfl⟩)
  rw [h item.1, stored, if_neg (by simpa using List.ne_nil_of_mem hmem)]
  exact ⟨_, rfl⟩

theorem Holds.isEmpty_iff (h : Holds buckets waiting) : buckets.entries = [] ↔ waiting = [] := by
  constructor
  · intro hnil
    apply List.eq_nil_iff_forall_not_mem.mpr
    intro item hitem
    obtain ⟨found, hfound⟩ := h.get_of_mem hitem
    rw [SortedMap.get_eq_some, hnil] at hfound
    cases hfound
  · rintro rfl
    apply List.eq_nil_iff_forall_not_mem.mpr
    rintro ⟨k, found⟩ hentry
    obtain ⟨item, hitem⟩ := h.mem (SortedMap.get_eq_some.mpr hentry)
    cases hitem

theorem queue_append_singleton (k k' : K) (item : β) :
    queue (waiting ++ [(k, item)]) k' = queue waiting k' ++ if k = k' then [item] else [] := by
  unfold queue
  rw [List.filter_append, List.map_append]
  by_cases hk : k = k' <;> simp [hk]

theorem Holds.pushBack (h : Holds buckets waiting) (k : K) (item : β) :
    Holds (pushBack buckets k item) (waiting ++ [(k, item)]) := by
  intro k'
  rw [Buckets.pushBack, SortedMap.get_alter, h k, getD_stored, queue_append_singleton]
  by_cases hk : k' = k
  · subst hk
    rw [if_pos rfl, if_pos rfl, stored, if_neg (by simp)]
  · rw [if_neg hk, if_neg (Ne.symm hk), List.append_nil, h k']

theorem getLast?_spec {k : K} {found : List β} (h : buckets.entries.getLast? = some (k, found)) :
    buckets.get k = some found ∧ ∀ k' found', buckets.get k' = some found' → k' ≤ k := by
  obtain ⟨front, hentries⟩ := List.getLast?_eq_some_iff.mp h
  have hsorted := buckets.sorted
  rw [hentries, List.pairwise_append] at hsorted
  constructor
  · rw [SortedMap.get_eq_some, hentries]
    simp
  · intro k' found' hget
    rw [SortedMap.get_eq_some, hentries, List.mem_append, List.mem_singleton] at hget
    rcases hget with hmem | heq
    · exact (hsorted.2.2 _ hmem _ (List.mem_singleton_self _)).le
    · exact (congrArg Prod.fst heq).le

theorem filter_eq_of_queue {k : K} {found : List β} (h : queue waiting k = found) :
    waiting.filter (fun item => item.1 = k) = found.map (Prod.mk k) := by
  subst h
  have hid : ∀ item ∈ waiting.filter fun item => item.1 = k, (k, item.2) = item := by
    rintro ⟨k', item⟩ hitem
    obtain rfl : k' = k := of_decide_eq_true (List.mem_filter.mp hitem).2
    rfl
  rw [queue, List.map_map]
  exact ((List.map_congr_left hid).trans (List.map_id _)).symm

/-- What is taken is the earliest item of the greatest key, and the queues hold what is left. -/
theorem Holds.popFront_some {item : K × β} {buckets' : SortedMap K (List β)}
    (h : Holds buckets waiting) (hpop : popFront buckets = some (item, buckets')) :
    ∃ rest, Takes Prod.fst waiting item rest ∧ Holds buckets' rest := by
  unfold popFront at hpop
  cases hlast : buckets.entries.getLast? with
  | none =>
    rw [hlast] at hpop
    cases hpop
  | some entry =>
    obtain ⟨k, found⟩ := entry
    rw [hlast] at hpop
    obtain ⟨hget, hle⟩ := getLast?_spec hlast
    cases found with
    | nil => cases hpop
    | cons first later =>
      cases hpop
      obtain ⟨hqueue, -⟩ := stored_eq_some ((h k).symm.trans hget)
      have hfilter := filter_eq_of_queue hqueue.symm
      have hwaiting : ∀ b ∈ waiting, b.1 ≤ k := fun b hb =>
        let ⟨found, hfound⟩ := h.get_of_mem hb
        hle _ found hfound
      obtain ⟨rest, htakes, hrest, hothers⟩ := takes_of_filter hwaiting hfilter
      refine ⟨rest, htakes, ?_⟩
      intro k'
      by_cases hk : k' = k
      · subst hk
        have hlater : queue rest k' = later := by
          rw [queue, hrest, List.map_map]
          exact List.map_id _
        rw [hlater]
        cases later with
        | nil => simp [stored]
        | cons second later => simp [stored]
      · have hsame : queue rest k' = queue waiting k' := congrArg (List.map Prod.snd) (hothers k' hk)
        rw [hsame, ← h k']
        split <;> simp [hk]

theorem Holds.popFront_none (h : Holds buckets waiting) (hpop : popFront buckets = none) :
    waiting = [] := by
  rw [← h.isEmpty_iff]
  unfold popFront at hpop
  cases hlast : buckets.entries.getLast? with
  | none => exact List.getLast?_eq_none_iff.mp hlast
  | some entry =>
    obtain ⟨k, found⟩ := entry
    rw [hlast] at hpop
    cases found with
    | nil =>
      obtain ⟨hqueue, hne⟩ := stored_eq_some ((h k).symm.trans (getLast?_spec hlast).1)
      exact absurd hqueue.symm hne
    | cons first later => cases hpop

end Buckets

end KRust.Lib
