import KRust.Lib.SortedMap
import KRust.Backend.Rebuild

/-!
Substitutions as maps, and their composition: substituting twice is substituting the composed
substitution once.
-/

namespace KRust.Backend

open KRust.Kore Lib

/-- A substitution: the terms that its variables are replaced by. -/
abbrev Substitution : Type := SortedMap TermVariable Term

namespace Term

/-- `compose`: the old values with the new bindings put in, and then the new bindings, which
take priority. -/
def compose (new old : Substitution) : Substitution :=
  (old.map fun _ term => substitute new.get term).extend new

theorem get_compose (new old : Substitution) (v : TermVariable) :
    (compose new old).get v = (new.get v).or ((old.get v).map (substitute new.get)) := by
  rw [compose, SortedMap.get_extend, SortedMap.get_map]

section Twice

variable {first second both : TermVariable → Option Term}

/-- Two rebuilds are one, when the one rebuilds each variable as the two do. -/
theorem rebuild_rebuild (hfirst : NormalBindings first) (hsecond : NormalBindings second)
    (hvar : ∀ v, rebuild both (.var v) = rebuild second (rebuild first (.var v))) {t : Term}
    (h : Normal t) : rebuild second (rebuild first t) = rebuild both t := by
  induction t with
  | and left right ihl ihr =>
    cases h with
    | and hleft hright => rw [rebuild, rebuild, ihl hleft, ihr hright, rebuild]
  | application symbol sortArguments arguments ih =>
    cases h with
    | application harguments _ =>
      have hnormal : ∀ a ∈ arguments.map (rebuild first), Normal a := by
        intro a ha
        obtain ⟨b, hb, rfl⟩ := List.mem_map.mp ha
        exact normal_rebuild hfirst (harguments b hb)
      have hall : (arguments.map (rebuild first)).map (rebuild second) =
          arguments.map (rebuild both) := by
        rw [List.map_map]
        exact List.map_congr_left fun a ha => ih a ha (harguments a ha)
      rw [rebuild, rebuildAll_eq, rebuild_mkApplication hsecond _ _ hnormal, hall, rebuild,
        rebuildAll_eq]
  | domainValue sort value => rfl
  | var v => exact (hvar v).symm
  | injection source target term ih =>
    cases h with
    | injection hterm _ => rw [rebuild, rebuild_mkInjection, ih hterm, rebuild]
  | map d entries rest ihe ihr =>
    cases h with
    | map hkeys hvalues hrest =>
      have hall : (entries.map (rebuildEntry first)).map (rebuildEntry second) =
          entries.map (rebuildEntry both) := by
        rw [List.map_map]
        refine List.map_congr_left fun e he => ?_
        rw [Function.comp_apply, rebuildEntry, rebuildEntry, rebuildEntry,
          (ihe e he).1 (hkeys e he), (ihe e he).2 (hvalues e he)]
      have hrests : (rest.map (rebuild first)).map (rebuild second) =
          rest.map (rebuild both) := by
        rw [Option.map_map]
        exact Option.map_congr fun r hr => ihr r hr (hrest r hr)
      have hnormal : ∀ r ∈ rest.map (rebuild first), Normal r := by
        intro r hr
        obtain ⟨r', hr', rfl⟩ := Option.map_eq_some_iff.mp hr
        exact normal_rebuild hfirst (hrest r' hr')
      rw [rebuild, rebuildEntries_eq, rebuildRest_eq, rebuild_mkMap hsecond _ hnormal, hall,
        hrests, rebuild, rebuildEntries_eq, rebuildRest_eq]
  | list d heads rest ihh ihr =>
    cases h with
    | list hheads hmiddle htails =>
      have hall : (heads.map (rebuild first)).map (rebuild second) =
          heads.map (rebuild both) := by
        rw [List.map_map]
        exact List.map_congr_left fun e he => ihh e he (hheads e he)
      have hrests : (rest.map fun e => (rebuild first e.1, e.2.map (rebuild first))).map
          (fun e => (rebuild second e.1, e.2.map (rebuild second))) =
            rest.map fun e => (rebuild both e.1, e.2.map (rebuild both)) := by
        rw [Option.map_map]
        refine Option.map_congr fun e he => ?_
        have htail : (e.2.map (rebuild first)).map (rebuild second) =
            e.2.map (rebuild both) := by
          rw [List.map_map]
          exact List.map_congr_left fun t ht => (ihr e he).2 t ht (htails e he t ht)
        rw [Function.comp_apply, (ihr e he).1 (hmiddle e he), htail]
      have hnormal : ∀ e ∈ rest.map fun e => (rebuild first e.1, e.2.map (rebuild first)),
          Normal e.1 := by
        intro e he
        obtain ⟨e', he', rfl⟩ := Option.map_eq_some_iff.mp he
        exact normal_rebuild hfirst (hmiddle e' he')
      rw [rebuild, rebuildAll_eq, rebuildMiddle_eq, rebuild_listOfItems hsecond _ hnormal, hall,
        hrests, rebuild, rebuildAll_eq, rebuildMiddle_eq]
  | set d elements rest ihe ihr =>
    cases h with
    | set helements hrest =>
      have hall : (elements.map (rebuild first)).map (rebuild second) =
          elements.map (rebuild both) := by
        rw [List.map_map]
        exact List.map_congr_left fun e he => ihe e he (helements e he)
      have hrests : (rest.map (rebuild first)).map (rebuild second) =
          rest.map (rebuild both) := by
        rw [Option.map_map]
        exact Option.map_congr fun r hr => ihr r hr (hrest r hr)
      have hnormal : ∀ r ∈ rest.map (rebuild first), Normal r := by
        intro r hr
        obtain ⟨r', hr', rfl⟩ := Option.map_eq_some_iff.mp hr
        exact normal_rebuild hfirst (hrest r' hr')
      rw [rebuild, rebuildAll_eq, rebuildRest_eq, rebuild_mkSet hsecond _ hnormal, hall,
        hrests, rebuild, rebuildAll_eq, rebuildRest_eq]

end Twice

section Compose

variable {new old : Substitution}

/-- Substituting the composed substitution is substituting the old one and then the new one. -/
theorem rebuild_compose (hnew : NormalBindings new.get) (hold : NormalBindings old.get)
    (hdisjoint : ∀ v ∈ new.keys, v ∉ old.keys) {t : Term} (h : Normal t) :
    rebuild new.get (rebuild old.get t) = rebuild (compose new old).get t := by
  refine rebuild_rebuild hold hnew (fun v => ?_) h
  simp only [rebuild, get_compose]
  cases hv : old.get v with
  | none => simp [rebuild]
  | some u =>
    have hnone : new.get v = none := by
      rw [← SortedMap.not_mem_keys]
      intro hmem
      exact hdisjoint v hmem (SortedMap.mem_keys.mpr ⟨u, hv⟩)
    rw [hnone, Option.none_or, Option.map_some, Option.getD_some, Option.getD_some,
      substitute_eq_rebuild (hold v u hv)]

end Compose

end Term

end KRust.Backend
