import KRust.Kast.JsonLaws
import KRust.Json.Standard

/-!
The KAST JSON of a term gives the term back without its annotations, unless a sort is named
by a numeral with a leading zero.
-/

set_option linter.unusedSectionVars false

namespace KRust.Kast.Json

open KRust.Json (Serializer)

variable {μ : Type}

/-- Both texts of a term are read as the term without its annotations. -/
theorem json_round_trip {library : Serializer} (hlibrary : library.Faithful) (t : Term μ)
    (hfits : t.Fits) (hsorts : t.CanonicalSorts) :
    (∃ text, toString library t = some text ∧ fromStr library.reader text = .ok t.strip) ∧
      (∃ text, toStringPretty library t = some text ∧
        fromStr library.reader text = .ok t.strip) := by
  constructor
  · exact fromStr_toText hlibrary hfits hsorts false
  · exact fromStr_toText hlibrary hfits hsorts true

theorem json_round_trip_map_entry :
    let t : Term Unit := .annotated (.apply ⟨"_|->_", [.mk "MInt" [.mk "64" []]]⟩
      [.var "K\n" none, .token "\"\\\"" (.mk "String" [])]) ()
    (∃ text, toString KRust.Json.Standard.library t = some text ∧
        fromStr KRust.Json.Standard.library.reader text = .ok t.strip) ∧
      (∃ text, toStringPretty KRust.Json.Standard.library t = some text ∧
        fromStr KRust.Json.Standard.library.reader text = .ok t.strip) := by
  have hsort {name : String} (h : ∀ canonical, numeralSpelling name.toList ≠ .nonCanonical canonical) :
      (KSort.mk name []).Canonical := .mk h (by rintro _ ⟨⟩)
  apply json_round_trip KRust.Json.Standard.library_faithful
  · apply Term.Fits.annotated
    apply Term.Fits.apply (by decide)
    rintro c (_ | ⟨_, _ | ⟨_, ⟨⟩⟩⟩)
    · exact .var _ _
    · exact .token _ _
  · apply Term.CanonicalSorts.annotated
    apply Term.CanonicalSorts.apply
    · rintro s (_ | ⟨_, ⟨⟩⟩)
      refine .mk (by rintro _ ⟨⟩) ?_
      rintro s (_ | ⟨_, ⟨⟩⟩)
      exact hsort (by rintro _ ⟨⟩)
    · rintro c (_ | ⟨_, _ | ⟨_, ⟨⟩⟩⟩)
      · exact .var (by rintro s ⟨⟩)
      · exact .token (hsort (by rintro _ ⟨⟩))

/-- A numeral with a leading zero is written as the name of a sort and refused when read. -/
theorem leading_zero_refused :
    let t : Term Unit := .token "0" (.mk "MInt" [.mk "064" []])
    ∃ text, toString KRust.Json.Standard.library t = some text ∧
      fromStr (μ := Unit) KRust.Json.Standard.library.reader text ≠ .ok t.strip := by
  intro t
  have hwritten : (toString KRust.Json.Standard.library t).isSome = true := by decide +kernel
  obtain ⟨text, htext⟩ := Option.isSome_iff_exists.mp hwritten
  refine ⟨text, htext, ?_⟩
  intro hread
  have hrefused : ((toString KRust.Json.Standard.library t).map fun text =>
      (fromStr (μ := Unit) KRust.Json.Standard.library.reader text).toOption.isSome) = some false := by
    decide +kernel
  rw [htext, Option.map_some, hread] at hrefused
  cases hrefused

end KRust.Kast.Json
