import KRust.Kore.Lexer
import KRust.Lib.Reader

/-!
The parser of textual KORE. Sorts and patterns are read by loops over explicit stacks of
the constructs that are open; the rest is recursive descent over the tokens.
-/

set_option linter.unusedSectionVars false

namespace KRust.Kore

open KRust.Lib

structure ParseError where
  offset : Nat
  message : String
  deriving DecidableEq

abbrev Parser := Reader Token ParseError

/-- The text of a token as a name. -/
def Token.name (t : Token) : String := String.ofList t.text

namespace Parser

section Tokens

variable {α : Type} (inputLen : Nat)

def peek : Parser (Option Token) := do return (← Reader.ahead).head?

def consume (kind : TokenKind) : Parser (Option Token) := Reader.take fun t => t.kind = kind

def expectedError (tokens : List Token) (kind : TokenKind) : ParseError :=
  match tokens.head? with
  | some actual =>
    ⟨actual.offset, "expected " ++ kind.display ++ ", found " ++ actual.kind.display⟩
  | none => ⟨inputLen, "expected " ++ kind.display ++ ", found end of input"⟩

def expected (kind : TokenKind) : Parser α := do
  Reader.fail (expectedError inputLen (← Reader.ahead) kind)

def expect (kind : TokenKind) : Parser Token := do
  match ← consume kind with
  | some t => pure t
  | none => expected inputLen kind

/-- The offset of the next token, or of the end of the text. -/
def nextOffset : Parser Nat := do
  return ((← peek).map Token.offset).getD inputLen

def ofExcept : Except ParseError α → Parser α
  | .error e => Reader.fail e
  | .ok a => pure a

theorem expect_strict (kind : TokenKind) : (expect inputLen kind).Strict := by
  intro tokens a rest h
  obtain ⟨taken, middle, htaken, hdone⟩ := Reader.bind_ok h
  cases tokens with
  | nil =>
    cases htaken
    cases hdone
  | cons t tokens =>
    rw [consume, Reader.run_take_cons] at htaken
    by_cases hkind : t.kind = kind
    · rw [if_pos (by simpa using hkind)] at htaken
      cases htaken
      cases hdone
      exact Nat.lt_succ_self _
    · rw [if_neg (by simpa using hkind)] at htaken
      cases htaken
      cases hdone

theorem advances_consume {σ : Type} {kind : TokenKind} {f : Option Token → Parser (σ ⊕ α)}
    (hnone : (f none).Advances) : (consume kind >>= f).Advances :=
  Reader.Advances.take hnone

def delimitedStep (closing : TokenKind) (parse : Parser α) (values : List α) :
    Parser (List α ⊕ List α) := do
  let value ← parse
  match ← consume .comma with
  | some _ => pure (.inl (values ++ [value]))
  | none =>
    let _ ← expect inputLen closing
    pure (.inr (values ++ [value]))

theorem delimitedStep_advances (closing : TokenKind) (parse : Parser α) (values : List α) :
    (delimitedStep inputLen closing parse values).Advances := by
  apply Reader.Advances.bind
  intro value
  apply advances_consume
  exact ((expect_strict inputLen closing).bind_left _).advances

/-- `delimited`: the values between two marks, with commas between them. -/
def delimited (opening closing : TokenKind) (parse : Parser α) : Parser (List α) := do
  let _ ← expect inputLen opening
  match ← consume closing with
  | some _ => pure []
  | none =>
    Reader.loop (delimitedStep inputLen closing parse)
      (delimitedStep_advances inputLen closing parse) []

end Tokens

section Sorts

variable (inputLen : Nat)

/-- A sort application whose arguments are being read. -/
structure SortFrame where
  name : String
  arguments : List KoreSort

/-- The open sort applications, innermost first, and the sort that was just read. -/
abbrev SortState := List SortFrame × Option KoreSort

/-- The end of a turn of the loop: a sort that was read becomes an argument of the
innermost application, which may end with it. -/
def reduceSort (stack : List SortFrame) (sort : KoreSort) : Parser (SortState ⊕ KoreSort) :=
  match stack with
  | [] => pure (.inr sort)
  | ⟨name, arguments⟩ :: stack => do
    match ← consume .comma with
    | some _ => pure (.inl (⟨name, arguments ++ [sort]⟩ :: stack, none))
    | none =>
      let _ ← expect inputLen .rBrace
      pure (.inl (stack, some (.application name (arguments ++ [sort]))))

def sortStep : SortState → Parser (SortState ⊕ KoreSort)
  | (stack, some sort) => reduceSort inputLen stack sort
  | (stack, none) => do
    let token ← expect inputLen .id
    match ← consume .lBrace with
    | none => reduceSort inputLen stack (.var token.name)
    | some _ =>
      match ← consume .rBrace with
      | some _ => reduceSort inputLen stack (.application token.name [])
      | none => pure (.inl (⟨token.name, []⟩ :: stack, none))

theorem reduceSort_advances (stack : List SortFrame) (sort : KoreSort) :
    (reduceSort inputLen stack sort).Advances := by
  cases stack with
  | nil => exact .pure sort
  | cons frame stack =>
    apply advances_consume
    exact ((expect_strict inputLen .rBrace).bind_left _).advances

theorem sortStep_advances (state : SortState) : (sortStep inputLen state).Advances := by
  rcases state with ⟨stack, _ | sort⟩
  · exact ((expect_strict inputLen .id).bind_left _).advances
  · exact reduceSort_advances inputLen stack sort

def sortLoop (state : SortState) : Parser KoreSort :=
  Reader.loop (sortStep inputLen) (sortStep_advances inputLen) state

def sort : Parser KoreSort := sortLoop inputLen ([], none)

def sortVariables : Parser (List String) :=
  delimited inputLen .lBrace .rBrace do return (← expect inputLen .id).name

def symbolName : Parser String := do return (← expect inputLen .id).name

def symbol : Parser Symbol := do
  let name ← symbolName inputLen
  let sortParameters ← delimited inputLen .lBrace .rBrace (sort inputLen)
  return ⟨name, sortParameters⟩

def oneSort : Parser KoreSort := do
  let _ ← expect inputLen .lBrace
  let s ← sort inputLen
  let _ ← expect inputLen .rBrace
  return s

def twoSorts : Parser (KoreSort × KoreSort) := do
  let _ ← expect inputLen .lBrace
  let operandSort ← sort inputLen
  let _ ← expect inputLen .comma
  let resultSort ← sort inputLen
  let _ ← expect inputLen .rBrace
  return (operandSort, resultSort)

/-- Whether the token after the next one is a colon. -/
def variableFollows : Parser Bool := do
  return (← Reader.ahead)[1]?.any fun t => t.kind = TokenKind.colon

/-- The kind of token that names a variable. -/
def variableToken : VariableKind → TokenKind
  | .element => .id
  | .set => .setVarId

def readVariable (kind : VariableKind) : Parser Variable := do
  let token ← expect inputLen (variableToken kind)
  let _ ← expect inputLen .colon
  let s ← sort inputLen
  return ⟨kind, token.name, s⟩

/-- `string_value`: the payload of a literal in an encoding. -/
def stringValue (encoding : LiteralEncoding) : Parser KoreString := do
  let token ← expect inputLen .string
  match unquoteAs token.text encoding with
  | .error e => Reader.fail ⟨token.offset + e.offset, e.message⟩
  | .ok value => pure value

def stringPattern : Parser Pattern := do return .string (← stringValue inputLen .utf8)

def domainValue : Parser Pattern := do
  let _ ← expect inputLen .mlDv
  let s ← oneSort inputLen
  let _ ← expect inputLen .lParen
  let value ← stringValue inputLen (.ofDomainValue s)
  let _ ← expect inputLen .rParen
  return .domainValue s value

end Sorts

section Frames

inductive Head where
  | application (symbol : Symbol)
  | and (sort : KoreSort)
  | or (sort : KoreSort)
  | unary (kind : TokenKind) (sort : KoreSort)
  | binary (kind : TokenKind) (sort : KoreSort)
  | quantifier (kind : TokenKind) (sort : KoreSort) (v : Variable)
  | fixpoint (kind : TokenKind) (v : Variable)
  | roundPredicate (kind : TokenKind) (operandSort resultSort : KoreSort)
  | binaryPredicate (kind : TokenKind) (operandSort resultSort : KoreSort)
  | associativeApplication (associativity : Associativity) (symbol : Symbol)
  | associativeOr (associativity : Associativity) (sort : KoreSort)

inductive Arity where
  | variadic
  | exact (arity : Nat)

/-- A pattern whose arguments are being read. -/
structure Frame where
  head : Head
  arguments : List Pattern
  arity : Arity
  outerClose : Bool

def Frame.exact (head : Head) (arity : Nat) : Frame := ⟨head, [], .exact arity, false⟩

/-- `fold_associative_or`: the disjunctions nested to one side; `none` for no argument. -/
def foldAssociativeOr (associativity : Associativity) (sort : KoreSort)
    (arguments : List Pattern) : Option Pattern :=
  match associativity with
  | .left =>
    match arguments with
    | [] => none
    | first :: arguments =>
      some (arguments.foldl (fun left right => .or sort [left, right]) first)
  | .right =>
    match arguments.reverse with
    | [] => none
    | last :: arguments =>
      some (arguments.foldl (fun right left => .or sort [left, right]) last)

/-- `finish`: the pattern of a head and its arguments. -/
def Head.finish (head : Head) (arguments : List Pattern) (offset : Nat) :
    Except ParseError Pattern :=
  match head, arguments with
  | .application symbol, arguments => .ok (.application symbol arguments)
  | .and sort, arguments => .ok (.and sort arguments)
  | .or sort, arguments => .ok (.or sort arguments)
  | .unary .mlNot sort, [argument] => .ok (.not sort argument)
  | .unary .mlNext sort, [argument] => .ok (.next sort argument)
  | .binary .mlImplies sort, [left, right] => .ok (.implies sort left right)
  | .binary .mlIff sort, [left, right] => .ok (.iff sort left right)
  | .binary .mlRewrites sort, [left, right] => .ok (.rewrites sort left right)
  | .quantifier .mlExists sort v, [body] => .ok (.exists sort v body)
  | .quantifier .mlForall sort v, [body] => .ok (.forall sort v body)
  | .fixpoint .mlMu v, [body] => .ok (.mu v body)
  | .fixpoint .mlNu v, [body] => .ok (.nu v body)
  | .roundPredicate .mlCeil operand result, [argument] => .ok (.ceil operand result argument)
  | .roundPredicate .mlFloor operand result, [argument] => .ok (.floor operand result argument)
  | .binaryPredicate .mlEquals operand result, [left, right] =>
    .ok (.equals operand result left right)
  | .binaryPredicate .mlIn operand result, [left, right] => .ok (.in operand result left right)
  | .associativeApplication associativity symbol, arguments =>
    if arguments.isEmpty then
      .error ⟨offset, "associative application requires at least one argument"⟩
    else .ok (.associativeApplication associativity symbol arguments)
  | .associativeOr associativity sort, arguments =>
    match foldAssociativeOr associativity sort arguments with
    | none => .error ⟨offset, "associative application requires at least one argument"⟩
    | some p => .ok p
  -- the stop of the source at a head with other arguments than the parser reads for it
  | _, _ => .error ⟨offset, "the parser enforces fixed pattern arity"⟩

end Frames

section Patterns

variable (inputLen : Nat)

/-- What the start of a pattern gives: a pattern without arguments, or one to read on. -/
inductive Started where
  | value (pattern : Pattern)
  | frame (frame : Frame)

def closeOuter (outerClose : Bool) : Parser Unit :=
  if outerClose then do
    let _ ← expect inputLen .rParen
    return ()
  else return ()

def fixed (head : Head) (arity : Nat) : Parser Started := do
  let _ ← expect inputLen .lParen
  return .frame (.exact head arity)

def variadic (head : Head) (outerClose : Bool) : Parser Started := do
  let _ ← expect inputLen .lParen
  match ← consume .rParen with
  | some _ =>
    closeOuter inputLen outerClose
    let offset ← nextOffset inputLen
    return .value (← ofExcept (head.finish [] offset))
  | none => return .frame ⟨head, [], .variadic, outerClose⟩

def associativeToken : Associativity → TokenKind
  | .left => .mlLeftAssoc
  | .right => .mlRightAssoc

def associative (associativity : Associativity) : Parser Started := do
  let _ ← expect inputLen (associativeToken associativity)
  let _ ← expect inputLen .lBrace
  let _ ← expect inputLen .rBrace
  let _ ← expect inputLen .lParen
  match ← consume .mlOr with
  | some or =>
    match ← delimited inputLen .lBrace .rBrace (sort inputLen) with
    | [s] => variadic inputLen (.associativeOr associativity s) true
    | _ =>
      Reader.fail ⟨or.offset,
        "\\or under associative syntax requires exactly one sort parameter"⟩
  | none =>
    let symbol ← symbol inputLen
    variadic inputLen (.associativeApplication associativity symbol) true

/-- The start of a connective with one sort. -/
def sorted (kind : TokenKind) (start : KoreSort → Parser Started) : Parser Started := do
  let _ ← expect inputLen kind
  let s ← oneSort inputLen
  start s

def startQuantifier (kind : TokenKind) : Parser Started :=
  sorted inputLen kind fun s => do
    let _ ← expect inputLen .lParen
    let v ← readVariable inputLen .element
    let _ ← expect inputLen .comma
    return .frame (.exact (.quantifier kind s v) 1)

def startFixpoint (kind : TokenKind) : Parser Started := do
  let _ ← expect inputLen kind
  let _ ← expect inputLen .lBrace
  let _ ← expect inputLen .rBrace
  let _ ← expect inputLen .lParen
  let v ← readVariable inputLen .set
  let _ ← expect inputLen .comma
  return .frame (.exact (.fixpoint kind v) 1)

/-- The start of a predicate with an operand sort and a result sort. -/
def startPredicate (kind : TokenKind) (head : KoreSort → KoreSort → Head) (arity : Nat) :
    Parser Started := do
  let _ ← expect inputLen kind
  let (operandSort, resultSort) ← twoSorts inputLen
  fixed inputLen (head operandSort resultSort) arity

def startConstant (kind : TokenKind) (constant : KoreSort → Pattern) : Parser Started :=
  sorted inputLen kind fun s => do
    let _ ← expect inputLen .lParen
    let _ ← expect inputLen .rParen
    return .value (constant s)

/-- The start of a pattern at a token, by its kind. -/
def startToken (token : Token) : Parser Started :=
  match token.kind with
  | .string => do return .value (← stringPattern inputLen)
  | .id => do
    if ← variableFollows then return .value (.var (← readVariable inputLen .element))
    else
      let symbol ← symbol inputLen
      variadic inputLen (.application symbol) false
  | .setVarId => do return .value (.var (← readVariable inputLen .set))
  | .mlTop => startConstant inputLen .mlTop .top
  | .mlBottom => startConstant inputLen .mlBottom .bottom
  | .mlAnd => sorted inputLen .mlAnd fun s => variadic inputLen (.and s) false
  | .mlOr => sorted inputLen .mlOr fun s => variadic inputLen (.or s) false
  | .mlNot => sorted inputLen .mlNot fun s => fixed inputLen (.unary .mlNot s) 1
  | .mlNext => sorted inputLen .mlNext fun s => fixed inputLen (.unary .mlNext s) 1
  | .mlImplies => sorted inputLen .mlImplies fun s => fixed inputLen (.binary .mlImplies s) 2
  | .mlIff => sorted inputLen .mlIff fun s => fixed inputLen (.binary .mlIff s) 2
  | .mlRewrites =>
    sorted inputLen .mlRewrites fun s => fixed inputLen (.binary .mlRewrites s) 2
  | .mlExists => startQuantifier inputLen .mlExists
  | .mlForall => startQuantifier inputLen .mlForall
  | .mlMu => startFixpoint inputLen .mlMu
  | .mlNu => startFixpoint inputLen .mlNu
  | .mlCeil => startPredicate inputLen .mlCeil (.roundPredicate .mlCeil) 1
  | .mlFloor => startPredicate inputLen .mlFloor (.roundPredicate .mlFloor) 1
  | .mlEquals => startPredicate inputLen .mlEquals (.binaryPredicate .mlEquals) 2
  | .mlIn => startPredicate inputLen .mlIn (.binaryPredicate .mlIn) 2
  | .mlDv => do return .value (← domainValue inputLen)
  | .mlLeftAssoc => associative inputLen .left
  | .mlRightAssoc => associative inputLen .right
  | actual =>
    Reader.fail ⟨token.offset, "expected pattern, found " ++ actual.display⟩

def startPattern : Parser Started := do
  match ← peek with
  | none => expected inputLen .id
  | some token => startToken inputLen token

/-- The open patterns, innermost first, and the pattern that was just read. -/
abbrev PatternState := List Frame × Option Pattern

/-- The end of the arguments of a frame. -/
def closeFrame (frame : Frame) (stack : List Frame) : Parser (PatternState ⊕ Pattern) := do
  let _ ← expect inputLen .rParen
  closeOuter inputLen frame.outerClose
  let offset ← nextOffset inputLen
  let value ← ofExcept (frame.head.finish frame.arguments offset)
  return .inl (stack, some value)

/-- The end of a turn of the loop: a pattern that was read becomes an argument of the
innermost frame, which may end with it. -/
def reducePattern (stack : List Frame) (pattern : Pattern) : Parser (PatternState ⊕ Pattern) :=
  match stack with
  | [] => pure (.inr pattern)
  | ⟨head, arguments, arity, outerClose⟩ :: stack =>
    let frame : Frame := ⟨head, arguments ++ [pattern], arity, outerClose⟩
    match arity with
    | .variadic => do
      match ← consume .comma with
      | some _ => pure (.inl (frame :: stack, none))
      | none => closeFrame inputLen frame stack
    | .exact arity =>
      if frame.arguments.length < arity then do
        let _ ← expect inputLen .comma
        pure (.inl (frame :: stack, none))
      else closeFrame inputLen frame stack

def patternStep : PatternState → Parser (PatternState ⊕ Pattern)
  | (stack, some pattern) => reducePattern inputLen stack pattern
  | (stack, none) => do
    match ← startPattern inputLen with
    | .value pattern => reducePattern inputLen stack pattern
    | .frame frame => pure (.inl (frame :: stack, none))

theorem readVariable_strict (kind : VariableKind) : (readVariable inputLen kind).Strict :=
  (expect_strict inputLen _).bind_left _

theorem symbol_strict : (symbol inputLen).Strict :=
  ((expect_strict inputLen .id).bind_left _).bind_left _

theorem startToken_strict (token : Token) : (startToken inputLen token).Strict := by
  unfold startToken
  split
  case h_1 => exact (((expect_strict inputLen .string).bind_left _).bind_left _).bind_left _
  case h_2 =>
    apply Reader.Strict.bind_right
    rintro (_ | _)
    · exact (symbol_strict inputLen).bind_left _
    · exact (readVariable_strict inputLen .element).bind_left _
  case h_3 => exact (readVariable_strict inputLen .set).bind_left _
  case h_21 => exact ((expect_strict inputLen .mlDv).bind_left _).bind_left _
  case h_24 => exact .fail _
  all_goals exact (expect_strict inputLen _).bind_left _

theorem startPattern_strict : (startPattern inputLen).Strict := by
  apply Reader.Strict.bind_right
  rintro (_ | token)
  · apply Reader.Strict.bind_right
    exact fun tokens => .fail _
  · exact startToken_strict inputLen token

theorem closeFrame_advances (frame : Frame) (stack : List Frame) :
    (closeFrame inputLen frame stack).Advances :=
  ((expect_strict inputLen .rParen).bind_left _).advances

theorem reducePattern_advances (stack : List Frame) (pattern : Pattern) :
    (reducePattern inputLen stack pattern).Advances := by
  rcases stack with _ | ⟨⟨head, arguments, arity, outerClose⟩, stack⟩
  · exact .pure pattern
  · cases arity with
    | variadic =>
      apply advances_consume
      exact closeFrame_advances inputLen _ stack
    | exact arity =>
      dsimp only [reducePattern]
      split
      · exact ((expect_strict inputLen .comma).bind_left _).advances
      · exact closeFrame_advances inputLen _ stack

theorem patternStep_advances (state : PatternState) : (patternStep inputLen state).Advances := by
  rcases state with ⟨stack, _ | pattern⟩
  · exact ((startPattern_strict inputLen).bind_left _).advances
  · exact reducePattern_advances inputLen stack pattern

def patternLoop (state : PatternState) : Parser Pattern :=
  Reader.loop (patternStep inputLen) (patternStep_advances inputLen) state

def pattern : Parser Pattern := patternLoop inputLen ([], none)

end Patterns

section Sentences

variable (inputLen : Nat)

def attributes : Parser Attributes := do
  return ⟨← delimited inputLen .lBracket .rBracket (pattern inputLen)⟩

def importSentence : Parser Sentence := do
  let _ ← expect inputLen .importKeyword
  let name := (← expect inputLen .id).name
  return .importModule name (← attributes inputLen)

def sortDeclaration (hooked : Bool) : Parser Sentence := do
  let _ ← expect inputLen (if hooked then .hookedSortKeyword else .sortKeyword)
  let name := (← expect inputLen .id).name
  let parameters ← sortVariables inputLen
  return .sortDeclaration hooked name parameters (← attributes inputLen)

def symbolDeclaration (hooked : Bool) : Parser Sentence := do
  let _ ← expect inputLen (if hooked then .hookedSymbolKeyword else .symbolKeyword)
  let symbol ← symbol inputLen
  let argumentSorts ← delimited inputLen .lParen .rParen (sort inputLen)
  let _ ← expect inputLen .colon
  let resultSort ← sort inputLen
  return .symbolDeclaration hooked symbol argumentSorts resultSort (← attributes inputLen)

/-- The message for a token that starts no variable of an alias. -/
def aliasLeftError (t : Token) : ParseError :=
  ⟨t.offset, "expected variable in alias left-hand side, found " ++ t.kind.display⟩

/-- The kind of variable a token names on the left of an alias. -/
def aliasLeftKind (token : Token) : Parser VariableKind :=
  match token.kind with
  | .id => pure .element
  | .setVarId => pure .set
  | _ => Reader.fail (aliasLeftError token)

def aliasLeftVariable : Parser Pattern := do
  match ← Reader.ahead with
  | [] =>
    Reader.fail ⟨inputLen, "expected variable in alias left-hand side, found end of input"⟩
  | token :: rest =>
    let kind ← aliasLeftKind token
    if rest.head?.any fun next => next.kind = .colon then
      return .var (← readVariable inputLen kind)
    else Reader.fail (aliasLeftError (rest.head?.getD token))

def aliasDeclaration : Parser Sentence := do
  let _ ← expect inputLen .aliasKeyword
  let aliased ← symbol inputLen
  let argumentSorts ← delimited inputLen .lParen .rParen (sort inputLen)
  let _ ← expect inputLen .colon
  let resultSort ← sort inputLen
  let _ ← expect inputLen .whereKeyword
  let symbol ← symbol inputLen
  let arguments ← delimited inputLen .lParen .rParen (aliasLeftVariable inputLen)
  let _ ← expect inputLen .walrus
  let right ← pattern inputLen
  return .aliasDeclaration aliased argumentSorts resultSort (.application symbol arguments) right
    (← attributes inputLen)

/-- `axiom`: an axiom or a claim. -/
def axiomSentence (claim : Bool) : Parser Sentence := do
  let _ ← expect inputLen (if claim then .claimKeyword else .axiomKeyword)
  let parameters ← sortVariables inputLen
  let pattern ← pattern inputLen
  let attributes ← attributes inputLen
  return if claim then .claimSentence parameters pattern attributes
    else .axiomSentence parameters pattern attributes

/-- A sentence by the keyword it starts with. -/
def sentenceToken (token : Token) : Parser Sentence :=
  match token.kind with
  | .importKeyword => importSentence inputLen
  | .sortKeyword => sortDeclaration inputLen false
  | .hookedSortKeyword => sortDeclaration inputLen true
  | .symbolKeyword => symbolDeclaration inputLen false
  | .hookedSymbolKeyword => symbolDeclaration inputLen true
  | .aliasKeyword => aliasDeclaration inputLen
  | .axiomKeyword => axiomSentence inputLen false
  | .claimKeyword => axiomSentence inputLen true
  | actual => Reader.fail ⟨token.offset, "expected sentence, found " ++ actual.display⟩

def sentence : Parser Sentence := do
  match ← peek with
  | none => expected inputLen .importKeyword
  | some token => sentenceToken inputLen token

theorem sentence_strict : (sentence inputLen).Strict := by
  apply Reader.Strict.bind_right
  rintro (_ | token)
  · apply Reader.Strict.bind_right
    exact fun tokens => .fail _
  · dsimp only
    unfold sentenceToken
    split
    case h_9 => exact .fail _
    all_goals exact (expect_strict inputLen _).bind_left _

/-- A turn of the loop over the sentences of a module. -/
def sentencesStep (sentences : List Sentence) : Parser (List Sentence ⊕ List Sentence) := do
  match ← peek with
  | none => expected inputLen .endModuleKeyword
  | some token =>
    if token.kind = .endModuleKeyword then return .inr sentences
    else return .inl (sentences ++ [← sentence inputLen])

theorem sentencesStep_advances (sentences : List Sentence) :
    (sentencesStep inputLen sentences).Advances := by
  apply Reader.Advances.bind
  rintro (_ | token)
  · apply Reader.Advances.bind
    exact fun tokens => (Reader.Strict.fail _).advances
  · dsimp only
    split
    · exact .pure sentences
    · exact ((sentence_strict inputLen).bind_left _).advances

def module : Parser Module := do
  let _ ← expect inputLen .moduleKeyword
  let name := (← expect inputLen .id).name
  let sentences ← Reader.loop (sentencesStep inputLen) (sentencesStep_advances inputLen) []
  let _ ← expect inputLen .endModuleKeyword
  return ⟨name, sentences, ← attributes inputLen⟩

theorem module_strict : (module inputLen).Strict :=
  (expect_strict inputLen .moduleKeyword).bind_left _

/-- A turn of the loop over the modules of a definition. -/
def modulesStep (modules : List Module) : Parser (List Module ⊕ List Module) := do
  match ← peek with
  | none => return .inr modules
  | some _ => return .inl (modules ++ [← module inputLen])

theorem modulesStep_advances (modules : List Module) :
    (modulesStep inputLen modules).Advances := by
  apply Reader.Advances.bind
  rintro (_ | token)
  · exact .pure modules
  · exact ((module_strict inputLen).bind_left _).advances

def definition : Parser Definition := do
  let attributes ← attributes inputLen
  let first ← module inputLen
  let modules ← Reader.loop (modulesStep inputLen) (modulesStep_advances inputLen) [first]
  return ⟨attributes, modules⟩

end Sentences

/-- `finish`: what a parser makes of all tokens of a text. -/
def finish {α : Type} (parse : Parser α) (tokens : List Token) : Except ParseError α :=
  match parse.run tokens with
  | .error e => .error e
  | .ok (value, []) => .ok value
  | .ok (_, token :: _) =>
    .error ⟨token.offset, "unexpected trailing token " ++ token.kind.display⟩

/-- The tokens of a text put through a parser, which knows the length of the text. -/
def parseText {α : Type} (parse : Nat → Parser α) (input : List Char) : Except ParseError α :=
  match lex input with
  | .error e => .error ⟨e.offset, e.message⟩
  | .ok tokens => finish (parse (byteLength input)) tokens

end Parser

def parsePattern (input : List Char) : Except ParseError Pattern :=
  Parser.parseText Parser.pattern input

def parseSentence (input : List Char) : Except ParseError Sentence :=
  Parser.parseText Parser.sentence input

def parseModule (input : List Char) : Except ParseError Module :=
  Parser.parseText Parser.module input

def parseDefinition (input : List Char) : Except ParseError Definition :=
  Parser.parseText Parser.definition input

end KRust.Kore
