import KRust.Kore.Parser
import KRust.Kore.Walk

/-!
The grammar of textual KORE without its layout: the lexemes of sorts, symbols, variables
and patterns in order, and the syntax trees that some text can spell.
-/

set_option linter.unusedSectionVars false

namespace KRust.Kore

/-- The class and the text of a token. -/
abbrev Lexeme := TokenKind × List Char

def Token.lexeme (t : Token) : Lexeme := (t.kind, t.text)

section Lexemes

def comma : Lexeme := (.comma, [','])
def colon : Lexeme := (.colon, [':'])
def walrus : Lexeme := (.walrus, [':', '='])
def lParen : Lexeme := (.lParen, ['('])
def rParen : Lexeme := (.rParen, [')'])
def lBrace : Lexeme := (.lBrace, ['\x7b'])
def rBrace : Lexeme := (.rBrace, ['\x7d'])
def lBracket : Lexeme := (.lBracket, ['['])
def rBracket : Lexeme := (.rBracket, [']'])

/-- The lexeme of a keyword or of a connective. -/
def word (kind : TokenKind) (text : String) : Lexeme := (kind, text.toList)

def identifier (name : String) : Lexeme := (.id, name.toList)

/-- The items of a list with commas between them. -/
def separated : List (List Lexeme) → List Lexeme
  | [] => []
  | [item] => item
  | item :: items => item ++ comma :: separated items

def braced (items : List (List Lexeme)) : List Lexeme := lBrace :: (separated items ++ [rBrace])

def parenthesized (items : List (List Lexeme)) : List Lexeme :=
  lParen :: (separated items ++ [rParen])

def bracketed (items : List (List Lexeme)) : List Lexeme :=
  lBracket :: (separated items ++ [rBracket])

theorem braced_append (items : List (List Lexeme)) (ls : List Lexeme) :
    braced items ++ ls = lBrace :: (separated items ++ rBrace :: ls) := by
  simp [braced]

theorem parenthesized_append (items : List (List Lexeme)) (ls : List Lexeme) :
    parenthesized items ++ ls = lParen :: (separated items ++ rParen :: ls) := by
  simp [parenthesized]

def KoreSort.lexemes : KoreSort → List Lexeme
  | .var name => [identifier name]
  | .application name arguments =>
    identifier name :: braced (arguments.attach.map fun s => s.1.lexemes)
decreasing_by
  have := List.sizeOf_lt_of_mem s.2
  simp only [application.sizeOf_spec]
  omega

theorem KoreSort.lexemes_var (name : String) : (KoreSort.var name).lexemes = [identifier name] := by
  rw [lexemes]

theorem KoreSort.lexemes_application (name : String) (arguments : List KoreSort) :
    (KoreSort.application name arguments).lexemes
      = identifier name :: braced (arguments.map lexemes) := by
  rw [lexemes, List.map_subtype (fun _ _ => rfl), List.unattach_attach]

def Symbol.lexemes (symbol : Symbol) : List Lexeme :=
  identifier symbol.name :: braced (symbol.sortParameters.map KoreSort.lexemes)

def Variable.lexemes (v : Variable) : List Lexeme :=
  (Parser.variableToken v.kind, v.name.toList) :: colon :: v.sort.lexemes

theorem Variable.lexemes_append (v : Variable) (ls : List Lexeme) :
    v.lexemes ++ ls
      = (Parser.variableToken v.kind, v.name.toList) :: colon :: (v.sort.lexemes ++ ls) := rfl

/-- The lexeme of a literal. -/
def literal (value : KoreString) (encoding : LiteralEncoding) : Lexeme :=
  (.string, quoteAs value encoding)

/-- The lexemes of a connective with one sort. -/
def connective (kind : TokenKind) (text : String) (sort : KoreSort)
    (operands : List (List Lexeme)) : List Lexeme :=
  word kind text :: (lBrace :: sort.lexemes ++ [rBrace]) ++ parenthesized operands

/-- The lexemes of a binder of set variables. -/
def fixpoint (kind : TokenKind) (text : String) (operands : List (List Lexeme)) : List Lexeme :=
  [word kind text, lBrace, rBrace] ++ parenthesized operands

/-- The lexemes of a predicate with an operand sort and a result sort. -/
def predicate (kind : TokenKind) (text : String) (operandSort resultSort : KoreSort)
    (operands : List (List Lexeme)) : List Lexeme :=
  word kind text :: braced [operandSort.lexemes, resultSort.lexemes] ++ parenthesized operands

def associativeWord : Associativity → Lexeme
  | .left => word .mlLeftAssoc "\\left-assoc"
  | .right => word .mlRightAssoc "\\right-assoc"

/-- The lexemes of a pattern with those of its direct subpatterns. -/
def Pattern.spell (operands : List (List Lexeme)) : Pattern → List Lexeme
  | .string value => [literal value .utf8]
  | .var v => v.lexemes
  | .application symbol _ => symbol.lexemes ++ parenthesized operands
  | .top sort => connective .mlTop "\\top" sort operands
  | .bottom sort => connective .mlBottom "\\bottom" sort operands
  | .and sort _ => connective .mlAnd "\\and" sort operands
  | .or sort _ => connective .mlOr "\\or" sort operands
  | .not sort _ => connective .mlNot "\\not" sort operands
  | .next sort _ => connective .mlNext "\\next" sort operands
  | .implies sort _ _ => connective .mlImplies "\\implies" sort operands
  | .iff sort _ _ => connective .mlIff "\\iff" sort operands
  | .rewrites sort _ _ => connective .mlRewrites "\\rewrites" sort operands
  | .exists sort v _ => connective .mlExists "\\exists" sort (v.lexemes :: operands)
  | .forall sort v _ => connective .mlForall "\\forall" sort (v.lexemes :: operands)
  | .mu v _ => fixpoint .mlMu "\\mu" (v.lexemes :: operands)
  | .nu v _ => fixpoint .mlNu "\\nu" (v.lexemes :: operands)
  | .ceil operand result _ => predicate .mlCeil "\\ceil" operand result operands
  | .floor operand result _ => predicate .mlFloor "\\floor" operand result operands
  | .equals operand result _ _ => predicate .mlEquals "\\equals" operand result operands
  | .in operand result _ _ => predicate .mlIn "\\in" operand result operands
  | .domainValue sort value =>
    connective .mlDv "\\dv" sort [[literal value (.ofDomainValue sort)]]
  | .associativeApplication side symbol _ =>
    [associativeWord side, lBrace, rBrace, lParen] ++ symbol.lexemes ++ parenthesized operands
      ++ [rParen]

def Pattern.lexemes (p : Pattern) : List Lexeme :=
  p.spell (p.children.attach.map fun c => lexemes c.1)
termination_by p
decreasing_by exact sizeOf_child c.2

theorem Pattern.lexemes_eq (p : Pattern) : p.lexemes = p.spell (p.children.map lexemes) := by
  rw [lexemes, List.map_subtype (fun _ _ => rfl), List.unattach_attach]

def Attributes.lexemes (attributes : Attributes) : List Lexeme :=
  bracketed (attributes.patterns.map Pattern.lexemes)

/-- The lexemes of the sort variables of a declaration. -/
def parameterLexemes (parameters : List String) : List Lexeme :=
  braced (parameters.map fun name => [identifier name])

def sortsLexemes (sorts : List KoreSort) : List Lexeme :=
  parenthesized (sorts.map KoreSort.lexemes)

def Sentence.lexemes : Sentence → List Lexeme
  | .importModule name attributes =>
    [word .importKeyword "import", identifier name] ++ attributes.lexemes
  | .sortDeclaration hooked name parameters attributes =>
    (if hooked then word .hookedSortKeyword "hooked-sort" else word .sortKeyword "sort") ::
      identifier name :: parameterLexemes parameters ++ attributes.lexemes
  | .symbolDeclaration hooked symbol argumentSorts resultSort attributes =>
    (if hooked then word .hookedSymbolKeyword "hooked-symbol" else word .symbolKeyword "symbol") ::
      symbol.lexemes ++ sortsLexemes argumentSorts ++ colon :: resultSort.lexemes
      ++ attributes.lexemes
  | .aliasDeclaration symbol argumentSorts resultSort left right attributes =>
    word .aliasKeyword "alias" :: symbol.lexemes ++ sortsLexemes argumentSorts
      ++ colon :: resultSort.lexemes ++ word .whereKeyword "where" :: left.lexemes
      ++ walrus :: right.lexemes ++ attributes.lexemes
  | .axiomSentence parameters pattern attributes =>
    word .axiomKeyword "axiom" :: parameterLexemes parameters ++ pattern.lexemes
      ++ attributes.lexemes
  | .claimSentence parameters pattern attributes =>
    word .claimKeyword "claim" :: parameterLexemes parameters ++ pattern.lexemes
      ++ attributes.lexemes

def Module.lexemes (m : Module) : List Lexeme :=
  [word .moduleKeyword "module", identifier m.name] ++ m.sentences.flatMap Sentence.lexemes
    ++ word .endModuleKeyword "endmodule" :: m.attributes.lexemes

def Definition.lexemes (d : Definition) : List Lexeme :=
  d.attributes.lexemes ++ d.modules.flatMap Module.lexemes

end Lexemes

section Names

/-- The texts that are one word, by the class of their token. -/
inductive Word : TokenKind → List Char → Prop where
  | plain {text : List Char} : IsIdentifier text → Word (classifyId text) text
  | escaped {text : List Char} : IsIdentifier text → Word (classifySymbol ('\\' :: text)) ('\\' :: text)
  | setVariable {text : List Char} : IsIdentifier text → Word .setVarId ('@' :: text)
  | escapedSetVariable {text : List Char} :
    IsIdentifier text → Word .setVarId ('\\' :: '@' :: text)

/-- A name that text KORE reads as an identifier. -/
def IsName (name : String) : Prop := Word .id name.toList

inductive KoreSort.Named : KoreSort → Prop where
  | var {name : String} : IsName name → Named (.var name)
  | application {name : String} {arguments : List KoreSort} :
    IsName name → (∀ s ∈ arguments, Named s) → Named (.application name arguments)

def Symbol.Named (symbol : Symbol) : Prop :=
  IsName symbol.name ∧ ∀ s ∈ symbol.sortParameters, s.Named

def Variable.Named (v : Variable) : Prop :=
  Word (Parser.variableToken v.kind) v.name.toList ∧ v.sort.Named

/-- The names at the root of a pattern are ones that text KORE reads as such. -/
def Pattern.NodeNamed : Pattern → Prop
  | .string _ => True
  | .var v => v.Named
  | .application symbol _ | .associativeApplication _ symbol _ => symbol.Named
  | .top sort | .bottom sort | .and sort _ | .or sort _ | .not sort _ | .next sort _
  | .implies sort _ _ | .iff sort _ _ | .rewrites sort _ _ | .domainValue sort _ => sort.Named
  | .exists sort v _ | .forall sort v _ => sort.Named ∧ v.Named
  | .mu v _ | .nu v _ => v.Named
  | .ceil operand result _ | .floor operand result _ | .equals operand result _ _
  | .in operand result _ _ => operand.Named ∧ result.Named

/-- What the root of a pattern keeps besides its names: canonical literals, binders of
their own kind of variable, and associative applications to something. -/
def Pattern.NodeFormed : Pattern → Prop
  | .string value => canonical value .utf8 = value
  | .domainValue sort value => canonical value (.ofDomainValue sort) = value
  | .exists _ v _ | .forall _ v _ => v.kind = .element
  | .mu v _ | .nu v _ => v.kind = .set
  | .associativeApplication _ _ arguments => arguments ≠ []
  | _ => True

/-- A property of every node of a pattern. -/
inductive Pattern.All (P : Pattern → Prop) : Pattern → Prop where
  | node {p : Pattern} : P p → (∀ c ∈ p.children, All P c) → All P p

theorem Pattern.All.root {P : Pattern → Prop} {p : Pattern} : p.All P → P p
  | .node root _ => root

theorem Pattern.All.child {P : Pattern → Prop} {p c : Pattern} (hc : c ∈ p.children) :
    p.All P → c.All P
  | .node _ children => children c hc

/-- Every name is one that text KORE reads as such. -/
def Pattern.Named (p : Pattern) : Prop := p.All NodeNamed

def Pattern.Formed (p : Pattern) : Prop := p.All NodeFormed

/-- The patterns that some text spells. -/
def Pattern.WellFormed (p : Pattern) : Prop := p.Named ∧ p.Formed

def Attributes.WellFormed (attributes : Attributes) : Prop :=
  ∀ p ∈ attributes.patterns, p.WellFormed

def Sentence.WellFormed : Sentence → Prop
  | .importModule name attributes => IsName name ∧ attributes.WellFormed
  | .sortDeclaration _ name parameters attributes =>
    IsName name ∧ (∀ p ∈ parameters, IsName p) ∧ attributes.WellFormed
  | .symbolDeclaration _ symbol argumentSorts resultSort attributes =>
    symbol.Named ∧ (∀ s ∈ argumentSorts, s.Named) ∧ resultSort.Named ∧ attributes.WellFormed
  | .aliasDeclaration symbol argumentSorts resultSort left right attributes =>
    symbol.Named ∧ (∀ s ∈ argumentSorts, s.Named) ∧ resultSort.Named ∧
      (∃ (applied : Symbol) (vs : List Variable),
        left = .application applied (vs.map .var) ∧ applied.Named ∧ ∀ v ∈ vs, v.Named) ∧ right.WellFormed ∧ attributes.WellFormed
  | .axiomSentence parameters pattern attributes
  | .claimSentence parameters pattern attributes =>
    (∀ p ∈ parameters, IsName p) ∧ pattern.WellFormed ∧ attributes.WellFormed

def Module.WellFormed (m : Module) : Prop :=
  IsName m.name ∧ (∀ s ∈ m.sentences, s.WellFormed) ∧ m.attributes.WellFormed

def Definition.WellFormed (d : Definition) : Prop :=
  d.attributes.WellFormed ∧ d.modules ≠ [] ∧ ∀ m ∈ d.modules, m.WellFormed

end Names

end KRust.Kore
