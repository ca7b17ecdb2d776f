import KRust.Kore.ParserImage
import KRust.Kore.PrinterLaws

/-!
Printing and parsing text KORE. The well-formed trees are exactly the ones some text
spells, and each is read back from what is printed of it, whatever the print options.
-/

set_option linter.unusedSectionVars false

namespace KRust.Kore

variable {p : Pattern} {d : Definition} {input : List Char}

theorem wellFormed_of_parsePattern (h : parsePattern input = .ok p) : p.WellFormed :=
  Parser.of_parseText (fun _ => Parser.gives_pattern) h

theorem wellFormed_of_parseDefinition (h : parseDefinition input = .ok d) : d.WellFormed :=
  Parser.of_parseText (fun _ => Parser.gives_definition) h

/-- A text whose lexemes are those of a pattern spells the pattern. -/
theorem parsePattern_of_lexemes (h : p.Formed) {tokens : List Token}
    (hlex : lex input = .ok tokens) (htokens : tokens.map Token.lexeme = p.lexemes) :
    parsePattern input = .ok p := by
  apply Parser.parseText_of_runs hlex
  intro inputLen
  have hruns : Parser.Runs (Parser.pattern inputLen) _ _ _ :=
    Parser.spells_pattern h [] (by rintro _ ⟨⟩)
  rwa [htokens, ← List.append_nil p.lexemes]

/-- A well-formed pattern is printed, and what is printed spells it. -/
theorem parsePattern_printPattern (h : p.WellFormed) (options : PrintOptions) :
    ∃ text, printPattern options p = some text ∧ parsePattern text = .ok p := by
  obtain ⟨text, tokens, hrender, hlex, htokens⟩ :=
    lex_renderOps (SyntaxTask.writes_pattern p h.1) options
  exact ⟨text, hrender, parsePattern_of_lexemes h.2 hlex htokens⟩

theorem parseDefinition_printDefinition (h : d.WellFormed) (options : PrintOptions) :
    ∃ text, printDefinition options d = some text ∧ parseDefinition text = .ok d := by
  obtain ⟨text, tokens, hrender, hlex, htokens⟩ := lex_renderOps (writes_definition h) options
  refine ⟨text, hrender, ?_⟩
  apply Parser.parseText_of_runs hlex
  intro inputLen
  rw [htokens]
  exact Parser.runs_definition h

/-- The well-formed patterns are the ones some text spells. -/
theorem wellFormed_iff_parsed : p.WellFormed ↔ ∃ input, parsePattern input = .ok p := by
  constructor
  · intro h
    obtain ⟨text, -, hparse⟩ := parsePattern_printPattern h ⟨.compact, 0, 0⟩
    exact ⟨text, hparse⟩
  · rintro ⟨input, h⟩
    exact wellFormed_of_parsePattern h

/-- Every pattern and every definition that is read from a text is printed, and what is
printed of it is read as the same tree. -/
theorem parse_print_round_trip (options : PrintOptions) (input : List Char) :
    (∀ p, parsePattern input = .ok p →
      ∃ text, printPattern options p = some text ∧ parsePattern text = .ok p) ∧
    (∀ d, parseDefinition input = .ok d →
      ∃ text, printDefinition options d = some text ∧ parseDefinition text = .ok d) := by
  constructor
  · intro p h
    exact parsePattern_printPattern (wellFormed_of_parsePattern h) options
  · intro d h
    exact parseDefinition_printDefinition (wellFormed_of_parseDefinition h) options

theorem parse_print_round_trip_conjunction :
    ∃ p text, parsePattern "\\and\x7bS\x7b\x7d\x7d(\\@X:S\x7b\x7d,\"a\")".toList = .ok p ∧
      printPattern ⟨.pretty, 2, 2⟩ p = some text ∧ parsePattern text = .ok p := by
  let input := "\\and\x7bS\x7b\x7d\x7d(\\@X:S\x7b\x7d,\"a\")".toList
  have hparse : (parsePattern input).toOption.isSome = true := by decide +kernel
  cases hp : parsePattern input with
  | error e => rw [hp] at hparse; cases hparse
  | ok p =>
    obtain ⟨text, hprint, hread⟩ := (parse_print_round_trip ⟨.pretty, 2, 2⟩ _).1 p hp
    exact ⟨p, text, rfl, hprint, hread⟩

end KRust.Kore
