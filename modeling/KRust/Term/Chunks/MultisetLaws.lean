import KRust.Term.Chunks.Multiset

/-!
The multisets are a group as the chunked sequence asks of a group summary: what a
multiset says is how often it holds each element, a combination adds that up, and
a subtraction takes it away again.
-/

set_option linter.unusedSectionVars false

namespace KRust.Term.Chunks

open KRust.Lib KRust.Lib.Partial KRust.Lib.KeyedCounts

variable {E : Type} [LinearOrder E] [FxHash E] {B : Branching}

namespace Multiset

/-- The sequence of entries. -/
def items (multiset : Multiset E B) : List (Occurrences E) := multiset.entries.items

theorem canonical_new : (new : Multiset E B).Canonical := by
  refine ⟨valid_new, List.Pairwise.nil, ?_⟩
  intro entry hentry
  cases hentry

/-- Canonical multisets of the same occurrences have the same entries. -/
theorem Canonical.entries_eq {left right : Multiset E B} (hleft : left.Canonical)
    (hright : right.Canonical) (heq : left.occurrences = right.occurrences) :
    left.items = right.items :=
  hleft.entries.ext hright.entries heq

/-- What a canonical multiset holds, a machine can. -/
theorem Canonical.held {multiset : Multiset E B} (h : multiset.Canonical) :
    HeldByMachine multiset.occurrences := by
  obtain ⟨height, hwithin⟩ := h.valid.within
  exact h.entries.heldByMachine (Chunked.Within.fits hwithin).count

/-- Two runs that hold `occurrences` when they do not stop, and stop only where the
machine cannot hold these, come to the same entries. -/
theorem entries_eq_of_yields {one two : Option (Multiset E B)} {occurrences : E → Nat}
    (hone : Yields (HeldByMachine occurrences) one
      (fun result => result.Canonical ∧ result.occurrences = occurrences))
    (htwo : Yields (HeldByMachine occurrences) two
      (fun result => result.Canonical ∧ result.occurrences = occurrences)) :
    one.map items = two.map items := by
  cases one with
  | none =>
    cases two with
    | none => rfl
    | some two => exact absurd (htwo.2 ▸ htwo.1.held) hone
  | some one =>
    cases two with
    | none => exact absurd (hone.2 ▸ hone.1.held) htwo
    | some two => exact congrArg some (hone.1.entries_eq htwo.1 (hone.2.trans htwo.2.symm))

variable {a b c : Multiset E B}

/-- A combination of three, the first two combined first. -/
theorem combine_left_yields (ha : a.Canonical) (hb : b.Canonical) (hc : c.Canonical) :
    Yields (HeldByMachine (a.occurrences + b.occurrences + c.occurrences))
      (combine a b >>= fun ab => combine ab c)
      (fun result => result.Canonical ∧
        result.occurrences = a.occurrences + b.occurrences + c.occurrences) := by
  refine ((combine_yields ha hb).mono (fun hheld => ?_) fun _ h => h).bind fun ab hab => ?_
  · exact hheld.mono fun e => Nat.le_add_right _ _
  · rw [← hab.2]
    exact combine_yields hab.1 hc

/-- A combination of three, the last two combined first. -/
theorem combine_right_yields (ha : a.Canonical) (hb : b.Canonical) (hc : c.Canonical) :
    Yields (HeldByMachine (a.occurrences + b.occurrences + c.occurrences))
      (combine b c >>= fun bc => combine a bc)
      (fun result => result.Canonical ∧
        result.occurrences = a.occurrences + b.occurrences + c.occurrences) := by
  rw [add_assoc]
  refine ((combine_yields hb hc).mono (fun hheld => ?_) fun _ h => h).bind fun bc hbc => ?_
  · exact hheld.mono fun e => Nat.le_add_left _ _
  · rw [← hbc.2]
    exact combine_yields ha hbc.1

/-- Subtracting what was combined gives back the entries. -/
theorem subtract_combined (ha : a.Canonical) (hb : b.Canonical) {ab : Multiset E B}
    (hab : combine a b = some ab) :
    ∃ back, subtract ab b = some back ∧ back.items = a.items := by
  obtain ⟨hcanonical, hsum⟩ := (combine_yields ha hb).of_eq_some hab
  have hheld : b.occurrences ≤ ab.occurrences := by
    rw [hsum]
    exact fun e => Nat.le_add_left _ _
  obtain ⟨back, hback, hbackCanonical, hleft⟩ := (subtract_yields hcanonical hb hheld).total trivial
  refine ⟨back, hback, hbackCanonical.entries_eq ha ?_⟩
  rw [hleft, hsum]
  funext e
  rw [Pi.add_apply, Nat.add_sub_cancel]

/-- Combination is commutative and associative, also in where it stops; a
subtraction undoes it and never stops on a multiset that holds what it removes;
and every result is canonical over a valid tree. -/
theorem combine_subtract_laws (ha : a.Canonical) (hb : b.Canonical) (hc : c.Canonical) :
    (combine a b).map items = (combine b a).map items ∧
    (combine a b >>= fun ab => combine ab c).map items =
      (combine b c >>= fun bc => combine a bc).map items ∧
    (∀ ab, combine a b = some ab → ab.Canonical ∧
      ab.occurrences = a.occurrences + b.occurrences ∧
      ∃ back, subtract ab b = some back ∧ back.items = a.items) ∧
    (HeldByMachine (a.occurrences + b.occurrences) → (combine a b).isSome) ∧
    (b.occurrences ≤ a.occurrences → ∃ left, subtract a b = some left ∧
      ∀ e, left.occurrences e = a.occurrences e - b.occurrences e) ∧
    ∀ left, subtract a b = some left → left.Canonical := by
  refine ⟨?_, ?_, ?_, ?_, ?_, fun left hleft => subtract_canonical ha hb hleft⟩
  · have hba := combine_yields hb ha
    rw [add_comm] at hba
    exact entries_eq_of_yields (combine_yields ha hb) hba
  · exact entries_eq_of_yields (combine_left_yields ha hb hc) (combine_right_yields ha hb hc)
  · intro ab hab
    obtain ⟨hcanonical, hsum⟩ := (combine_yields ha hb).of_eq_some hab
    exact ⟨hcanonical, hsum, subtract_combined ha hb hab⟩
  · intro hheld
    obtain ⟨ab, hab, _⟩ := (combine_yields ha hb).total hheld
    rw [hab]
    rfl
  · intro hheld
    obtain ⟨left, hleft, _, hcounts⟩ := (subtract_yields ha hb hheld).total trivial
    exact ⟨left, hleft, fun e => congrFun hcounts e⟩

/-- Three numbers combined with one of them and another. -/
theorem combine_subtract_laws_numbers :
    ∃ a b ab back : Multiset Nat ⟨64, by decide⟩,
      a.items = [⟨1, 2⟩, ⟨4, 1⟩, ⟨9, 3⟩] ∧ b.items = [⟨4, 2⟩, ⟨5, 1⟩] ∧ combine a b = some ab ∧
      ab.occurrences 4 = 3 ∧ subtract ab b = some back ∧ back.items = [⟨1, 2⟩, ⟨4, 1⟩, ⟨9, 3⟩] := by
  have hbuild : ∀ entries : List (Occurrences Nat), CanonicalEntries entries →
      entries.length ≤ usizeMax →
      ∃ multiset : Multiset Nat ⟨64, by decide⟩, multiset.Canonical ∧ multiset.items = entries := by
    intro entries hentries hlen
    obtain ⟨tree, _, hvalid, rfl⟩ :=
      (fromVec_yields ⟨64, by decide⟩ entries).total ⟨hlen, trivial, trivial⟩
    exact ⟨⟨tree⟩, ⟨hvalid, hentries⟩, rfl⟩
  obtain ⟨a, ha, haItems⟩ := hbuild [⟨1, 2⟩, ⟨4, 1⟩, ⟨9, 3⟩]
    ⟨by simp [KeyOrdered, Item.key], by simp [Occurrences.Counted, usizeMax]⟩ (by decide)
  obtain ⟨b, hb, hbItems⟩ := hbuild [⟨4, 2⟩, ⟨5, 1⟩]
    ⟨by simp [KeyOrdered, Item.key], by simp [Occurrences.Counted, usizeMax]⟩ (by decide)
  have hsum : a.occurrences + b.occurrences =
      occurrencesIn [⟨1, 2⟩, ⟨4, 3⟩, ⟨5, 1⟩, ⟨9, 3⟩] := by
    rw [occurrences, occurrences, ← items, ← items, haItems, hbItems]
    funext e
    simp only [Pi.add_apply, occurrencesIn_cons, occurrencesIn_nil, Pi.zero_apply]
    split <;> split <;> split <;> split <;> omega
  have hheld : HeldByMachine (a.occurrences + b.occurrences) := by
    rw [hsum]
    have hcanonical : CanonicalEntries ([⟨1, 2⟩, ⟨4, 3⟩, ⟨5, 1⟩, ⟨9, 3⟩] : List (Occurrences Nat)) :=
      ⟨by simp [KeyOrdered, Item.key], by simp [Occurrences.Counted, usizeMax]⟩
    exact hcanonical.heldByMachine (by decide)
  obtain ⟨_, _, hcombine, htotal, _⟩ := combine_subtract_laws ha hb ha
  obtain ⟨ab, hab⟩ := Option.isSome_iff_exists.mp (htotal hheld)
  obtain ⟨_, habSum, back, hback, hbackItems⟩ := hcombine ab hab
  refine ⟨a, b, ab, back, haItems, hbItems, hab, ?_, hback, hbackItems.trans haItems⟩
  rw [habSum, hsum]
  rfl

end Multiset

/-- A multiset that carries that it is canonical. -/
structure CanonicalMultiset (E : Type) [LinearOrder E] [FxHash E] (B : Branching)
    extends Multiset E B where
  canonical : toMultiset.Canonical

instance : Summary (CanonicalMultiset E B) where
  identity := ⟨Multiset.new, Multiset.canonical_new⟩
  combine left right :=
    (Multiset.combine left.toMultiset right.toMultiset).pmap (fun result h => ⟨result, h⟩)
      fun _ hresult =>
        ((Multiset.combine_yields left.canonical right.canonical).of_eq_some hresult).1
  constant := false

instance : Group (CanonicalMultiset E B) where
  subtract whole part :=
    (Multiset.subtract whole.toMultiset part.toMultiset).pmap (fun result h => ⟨result, h⟩)
      fun _ hresult => Multiset.subtract_canonical whole.canonical part.canonical hresult
  weight multiset := multiset.weight

instance : LawfulSummary (CanonicalMultiset E B) (E → Nat) where
  value multiset := multiset.occurrences
  Representable := HeldByMachine
  representable_value multiset := multiset.canonical.held
  representable_drop x y z h := h.mono fun e => by simp only [Pi.add_apply]; omega
  value_identity := rfl
  combine_yields left right :=
    (Multiset.combine_yields left.canonical right.canonical).pmap fun _ _ h => h.2
  value_constant h := by cases h

instance : LawfulGroup (CanonicalMultiset E B) (E → Nat) where
  subtract_yields whole part rest hwhole := by
    have hheld : part.occurrences ≤ whole.occurrences := by
      intro e
      have he : whole.occurrences e = part.occurrences e + rest e := congrFun hwhole e
      rw [he]
      exact Nat.le_add_right _ _
    refine (Multiset.subtract_yields whole.canonical part.canonical hheld).pmap
      fun result hresult hleft => ?_
    funext e
    have he : whole.occurrences e = part.occurrences e + rest e := congrFun hwhole e
    have hleftAt : result.occurrences e = whole.occurrences e - part.occurrences e :=
      congrFun hleft.2 e
    change result.occurrences e = rest e
    omega

end KRust.Term.Chunks
