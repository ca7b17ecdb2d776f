import KRust.Kore.Lexical
import KRust.Kore.Literal

/-!
Lexical analysis of textual KORE: tokens with their text and offset, comments and
white space between them, and the classes of identifiers.
-/

set_option linter.unusedSectionVars false

namespace KRust.Kore

section Definitions

inductive TokenKind where
  | comma
  | colon
  | walrus
  | lParen
  | rParen
  | lBrace
  | rBrace
  | lBracket
  | rBracket
  | string
  | id
  | setVarId
  | mlTop
  | mlBottom
  | mlNot
  | mlAnd
  | mlOr
  | mlImplies
  | mlIff
  | mlExists
  | mlForall
  | mlMu
  | mlNu
  | mlCeil
  | mlFloor
  | mlEquals
  | mlIn
  | mlNext
  | mlRewrites
  | mlDv
  | mlLeftAssoc
  | mlRightAssoc
  | moduleKeyword
  | endModuleKeyword
  | importKeyword
  | sortKeyword
  | hookedSortKeyword
  | symbolKeyword
  | hookedSymbolKeyword
  | axiomKeyword
  | claimKeyword
  | aliasKeyword
  | whereKeyword
  deriving DecidableEq

/-- A token kind as a reader of KORE text knows it. -/
def TokenKind.display : TokenKind → String
  | .string => "a string literal"
  | .id => "an identifier"
  | .setVarId => "a set variable"
  | .comma => "','"
  | .colon => "':'"
  | .walrus => "':='"
  | .lParen => "'('"
  | .rParen => "')'"
  | .lBrace => "'\x7b'"
  | .rBrace => "'\x7d'"
  | .lBracket => "'['"
  | .rBracket => "']'"
  | .mlTop => "'\\top'"
  | .mlBottom => "'\\bottom'"
  | .mlNot => "'\\not'"
  | .mlAnd => "'\\and'"
  | .mlOr => "'\\or'"
  | .mlImplies => "'\\implies'"
  | .mlIff => "'\\iff'"
  | .mlExists => "'\\exists'"
  | .mlForall => "'\\forall'"
  | .mlMu => "'\\mu'"
  | .mlNu => "'\\nu'"
  | .mlCeil => "'\\ceil'"
  | .mlFloor => "'\\floor'"
  | .mlEquals => "'\\equals'"
  | .mlIn => "'\\in'"
  | .mlNext => "'\\next'"
  | .mlRewrites => "'\\rewrites'"
  | .mlDv => "'\\dv'"
  | .mlLeftAssoc => "'\\left-assoc'"
  | .mlRightAssoc => "'\\right-assoc'"
  | .moduleKeyword => "'module'"
  | .endModuleKeyword => "'endmodule'"
  | .importKeyword => "'import'"
  | .sortKeyword => "'sort'"
  | .hookedSortKeyword => "'hooked-sort'"
  | .symbolKeyword => "'symbol'"
  | .hookedSymbolKeyword => "'hooked-symbol'"
  | .axiomKeyword => "'axiom'"
  | .claimKeyword => "'claim'"
  | .aliasKeyword => "'alias'"
  | .whereKeyword => "'where'"

structure Token where
  kind : TokenKind
  text : List Char
  offset : Nat
  deriving DecidableEq

structure LexError where
  offset : Nat
  message : String
  deriving DecidableEq

/-- The text not read yet and the offset it starts at. -/
structure Lexer where
  remaining : List Char
  offset : Nat

def isWhitespace (c : Char) : Bool :=
  c = ' ' || c = '\t' || c = '\n' || c = '\x0b' || c = '\x0c' || c = '\r'

def classifyId (text : List Char) : TokenKind :=
  match String.ofList text with
  | "module" => .moduleKeyword
  | "endmodule" => .endModuleKeyword
  | "import" => .importKeyword
  | "sort" => .sortKeyword
  | "hooked-sort" => .hookedSortKeyword
  | "symbol" => .symbolKeyword
  | "hooked-symbol" => .hookedSymbolKeyword
  | "axiom" => .axiomKeyword
  | "claim" => .claimKeyword
  | "alias" => .aliasKeyword
  | "where" => .whereKeyword
  | _ => .id

def classifySymbol (text : List Char) : TokenKind :=
  match String.ofList text with
  | "\\top" => .mlTop
  | "\\bottom" => .mlBottom
  | "\\not" => .mlNot
  | "\\and" => .mlAnd
  | "\\or" => .mlOr
  | "\\implies" => .mlImplies
  | "\\iff" => .mlIff
  | "\\exists" => .mlExists
  | "\\forall" => .mlForall
  | "\\mu" => .mlMu
  | "\\nu" => .mlNu
  | "\\ceil" => .mlCeil
  | "\\floor" => .mlFloor
  | "\\equals" => .mlEquals
  | "\\in" => .mlIn
  | "\\next" => .mlNext
  | "\\rewrites" => .mlRewrites
  | "\\dv" => .mlDv
  | "\\left-assoc" => .mlLeftAssoc
  | "\\right-assoc" => .mlRightAssoc
  | _ => .id

/-- The loop that reads on while the next character passes a test. -/
def Lexer.bumpWhile (test : Char → Bool) (l : Lexer) : Lexer :=
  ⟨l.remaining.dropWhile test, l.offset + byteLength (l.remaining.takeWhile test)⟩

/-- What lies before and after the end mark of a block comment. -/
def splitBlockEnd : List Char → Option (List Char × List Char)
  | '*' :: '/' :: after => some ([], after)
  | c :: rest => (splitBlockEnd rest).map fun (before, after) => (c :: before, after)
  | [] => none

theorem splitBlockEnd_length {text before after : List Char}
    (h : splitBlockEnd text = some (before, after)) : after.length < text.length := by
  fun_induction splitBlockEnd text generalizing before with
  | case1 after' =>
    cases h
    simp only [List.length_cons]
    omega
  | case2 c rest _ ih =>
    obtain ⟨pair, hpair, heq⟩ := Option.map_eq_some_iff.mp h
    cases heq
    have := ih hpair
    simp only [List.length_cons]
    omega
  | case3 => cases h

theorem Lexer.bumpWhile_length (test : Char → Bool) (l : Lexer) :
    (l.bumpWhile test).remaining.length ≤ l.remaining.length :=
  List.Sublist.length_le (List.dropWhile_sublist test)

/-- `skip_trivia`: white space and comments before a token. -/
def Lexer.skipTrivia (l : Lexer) : Except LexError Lexer :=
  match _h : (l.bumpWhile isWhitespace).remaining with
  | '/' :: '/' :: rest =>
    skipTrivia ((⟨rest, (l.bumpWhile isWhitespace).offset + 2⟩ : Lexer).bumpWhile (· ≠ '\n'))
  | '/' :: '*' :: rest =>
    match _hend : splitBlockEnd rest with
    | none => .error ⟨(l.bumpWhile isWhitespace).offset, "unterminated block comment"⟩
    | some (before, after) =>
      skipTrivia ⟨after, (l.bumpWhile isWhitespace).offset + 2 + byteLength before + 2⟩
  | _ => .ok (l.bumpWhile isWhitespace)
termination_by l.remaining.length
decreasing_by
  · have hws := l.bumpWhile_length isWhitespace
    have hline := Lexer.bumpWhile_length (· ≠ '\n')
      ⟨rest, (l.bumpWhile isWhitespace).offset + 2⟩
    rw [_h] at hws
    simp only [List.length_cons] at hws hline ⊢
    omega
  · have hws := l.bumpWhile_length isWhitespace
    have hblock := splitBlockEnd_length _hend
    rw [_h] at hws
    simp only [List.length_cons] at hws ⊢
    omega

/-- `scan_hex_escape` after its marker: exactly so many hexadecimal digits. -/
def Lexer.scanHexDigits (escapeOffset : Nat) : Nat → Lexer → Except LexError Lexer
  | 0, l => .ok l
  | _ + 1, ⟨[], _⟩ => .error ⟨escapeOffset, "truncated Unicode escape"⟩
  | digits + 1, ⟨c :: rest, offset⟩ =>
    if (hexValue c).isNone then .error ⟨offset, "invalid Unicode escape"⟩
    else scanHexDigits escapeOffset digits ⟨rest, offset + c.utf8Size⟩

theorem Lexer.scanHexDigits_length {digits escapeOffset : Nat} {l l' : Lexer}
    (h : l.scanHexDigits escapeOffset digits = .ok l') :
    l'.remaining.length ≤ l.remaining.length := by
  fun_induction Lexer.scanHexDigits escapeOffset digits l with
  | case1 l =>
    cases h
    exact Nat.le_refl _
  | case2 => cases h
  | case3 => cases h
  | case4 digits c rest offset _ ih =>
    have := ih h
    simp only [List.length_cons] at this ⊢
    omega

/-- The digits after the marker of a hexadecimal escape. -/
def hexEscapeDigits : Char → Option Nat
  | 'x' => some 2
  | 'u' => some 4
  | 'U' => some 8
  | _ => none

/-- `scan_string`: the rest of a string literal that was opened at `start`. -/
def Lexer.scanString (start : Nat) (l : Lexer) : Except LexError Lexer :=
  match l with
  | ⟨[], _⟩ => .error ⟨start, "unterminated string"⟩
  | ⟨character :: rest, offset⟩ =>
    if character = '"' then .ok ⟨rest, offset + 1⟩
    else if character = '\\' then
      match rest with
      | [] => .error ⟨offset, "unterminated escape"⟩
      | escape :: rest =>
        if escape ∈ ['"', '\\', 'n', 'r', 't', 'f'] then
          scanString start ⟨rest, offset + 1 + escape.utf8Size⟩
        else
          match hexEscapeDigits escape with
          | none => .error ⟨offset + 1, "unknown escape"⟩
          | some digits =>
            match _h : scanHexDigits offset digits ⟨rest, offset + 2⟩ with
            | .error e => .error e
            | .ok l => scanString start l
    else if isControl character then .error ⟨offset, "non-printable character in string"⟩
    else scanString start ⟨rest, offset + character.utf8Size⟩
termination_by l.remaining.length
decreasing_by
  · simp only [List.length_cons]
    omega
  · have := scanHexDigits_length _h
    simp only [List.length_cons] at this ⊢
    omega
  · simp

/-- The text between two states of the lexer. -/
def Lexer.textTo (start now : Lexer) : List Char :=
  start.remaining.take (start.remaining.length - now.remaining.length)

/-- The token between two states of the lexer. -/
def Lexer.token (start now : Lexer) (kind : TokenKind) : Token :=
  ⟨kind, start.textTo now, start.offset⟩

/-- The step that ends a token at `now`. -/
def Lexer.emit (start now : Lexer) (kind : TokenKind) :
    Except LexError (Option (Token × Lexer)) :=
  .ok (some (start.token now kind, now))

/-- `scan_prefixed_id`: the rest of an identifier after the mark it starts with. -/
def Lexer.scanPrefixedId (start now : Lexer) (classify : List Char → TokenKind) :
    Except LexError (Option (Token × Lexer)) :=
  if now.remaining.head?.any Char.isAlpha then
    start.emit (now.bumpWhile isIdChar) (classify (start.textTo (now.bumpWhile isIdChar)))
  else .error ⟨start.offset, "identifier prefix must be followed by a letter"⟩

/-- The marks that are tokens by themselves. -/
def punctuation : Char → Option TokenKind
  | ',' => some .comma
  | '(' => some .lParen
  | ')' => some .rParen
  | '{' => some .lBrace
  | '}' => some .rBrace
  | '[' => some .lBracket
  | ']' => some .rBracket
  | _ => none

/-- The token that starts at `start`, which is at no white space or comment. -/
def Lexer.scanToken (start : Lexer) : Except LexError (Option (Token × Lexer)) :=
  match start.remaining with
  | [] => .ok none
  | ':' :: '=' :: rest => start.emit ⟨rest, start.offset + 2⟩ .walrus
  | ':' :: rest => start.emit ⟨rest, start.offset + 1⟩ .colon
  | '"' :: rest =>
    match scanString start.offset ⟨rest, start.offset + 1⟩ with
    | .error e => .error e
    | .ok now => start.emit now .string
  | '\\' :: '@' :: rest => start.scanPrefixedId ⟨rest, start.offset + 2⟩ fun _ => .setVarId
  | '\\' :: rest => start.scanPrefixedId ⟨rest, start.offset + 1⟩ classifySymbol
  | '@' :: rest => start.scanPrefixedId ⟨rest, start.offset + 1⟩ fun _ => .setVarId
  | c :: rest =>
    match punctuation c with
    | some kind => start.emit ⟨rest, start.offset + 1⟩ kind
    | none =>
      if c.isAlpha then
        let now := (⟨rest, start.offset + 1⟩ : Lexer).bumpWhile isIdChar
        start.emit now (classifyId (start.textTo now))
      else .error ⟨start.offset, "unexpected character"⟩

/-- `next_token`: the next token and the state after it; `none` at the end of the text. -/
def Lexer.nextToken (l : Lexer) : Except LexError (Option (Token × Lexer)) :=
  match l.skipTrivia with
  | .error e => .error e
  | .ok start => start.scanToken

theorem Lexer.skipTrivia_length {l l' : Lexer} (h : l.skipTrivia = .ok l') :
    l'.remaining.length ≤ l.remaining.length := by
  fun_induction Lexer.skipTrivia l with
  | case1 l rest hws ih =>
    have hle := l.bumpWhile_length isWhitespace
    have hline := Lexer.bumpWhile_length (· ≠ '\n') ⟨rest, (l.bumpWhile isWhitespace).offset + 2⟩
    have := ih h
    rw [hws] at hle
    simp only [List.length_cons] at hle hline this
    omega
  | case2 l rest hws hend => cases h
  | case3 l rest hws before after hend ih =>
    have hle := l.bumpWhile_length isWhitespace
    have hblock := splitBlockEnd_length hend
    have := ih h
    rw [hws] at hle
    simp only [List.length_cons] at hle this
    omega
  | case4 l hws _ =>
    cases h
    exact l.bumpWhile_length isWhitespace

theorem Lexer.scanString_length {start : Nat} {l l' : Lexer} (h : l.scanString start = .ok l') :
    l'.remaining.length < l.remaining.length := by
  fun_induction Lexer.scanString start l with
  | case1 => cases h
  | case2 rest offset =>
    cases h
    simp
  | case3 => cases h
  | case4 offset escape rest hquote hnamed ih =>
    have := ih h
    simp only [List.length_cons] at this ⊢
    omega
  | case5 => cases h
  | case6 => cases h
  | case7 offset escape rest hnamed digits hdigits l hhex hquote ih =>
    have := scanHexDigits_length hhex
    have := ih h
    simp only [List.length_cons] at *
    omega
  | case8 => cases h
  | case9 character rest offset _ _ _ ih =>
    have := ih h
    simp only [List.length_cons] at this ⊢
    omega

theorem Lexer.emit_length {start now l : Lexer} {kind : TokenKind} {t : Token}
    (h : start.emit now kind = .ok (some (t, l))) : l = now := by
  simp only [emit, Except.ok.injEq, Option.some.injEq, Prod.mk.injEq] at h
  exact h.2.symm

theorem Lexer.scanPrefixedId_length {start now l : Lexer} {classify : List Char → TokenKind}
    {t : Token} (h : start.scanPrefixedId now classify = .ok (some (t, l))) :
    l.remaining.length ≤ now.remaining.length := by
  unfold scanPrefixedId at h
  split at h
  · rw [emit_length h]
    exact now.bumpWhile_length isIdChar
  · cases h

theorem Lexer.scanToken_length {start l : Lexer} {t : Token}
    (h : start.scanToken = .ok (some (t, l))) :
    l.remaining.length < start.remaining.length := by
  unfold scanToken at h
  split at h
  case h_1 => cases h
  case h_2 heq | h_3 heq =>
    rw [emit_length h, heq]
    simp
    try omega
  case h_4 rest heq =>
    cases hstring : scanString start.offset ⟨rest, start.offset + 1⟩ with
    | error e =>
      rw [hstring] at h
      cases h
    | ok now =>
      rw [hstring] at h
      have hlen := scanString_length hstring
      rw [emit_length h, heq]
      simp only [List.length_cons] at hlen ⊢
      omega
  case h_5 heq | h_6 heq | h_7 heq =>
    have hlen := scanPrefixedId_length h
    rw [heq]
    simp only [List.length_cons] at hlen ⊢
    omega
  case h_8 c rest heq =>
    rw [heq]
    split at h
    · rw [emit_length h]
      simp
    · split at h
      · rw [emit_length h]
        refine Nat.lt_of_le_of_lt (bumpWhile_length isIdChar _) ?_
        simp
      · cases h

theorem Lexer.nextToken_length {l l' : Lexer} {t : Token} (h : l.nextToken = .ok (some (t, l'))) :
    l'.remaining.length < l.remaining.length := by
  unfold nextToken at h
  split at h
  · cases h
  · rename_i start htrivia
    exact Nat.lt_of_lt_of_le (scanToken_length h) (skipTrivia_length htrivia)

/-- `lex` from a state: the tokens up to the end of the text. -/
def Lexer.lexFrom (l : Lexer) : Except LexError (List Token) :=
  match _h : l.nextToken with
  | .error e => .error e
  | .ok none => .ok []
  | .ok (some (t, now)) =>
    match now.lexFrom with
    | .error e => .error e
    | .ok tokens => .ok (t :: tokens)
termination_by l.remaining.length
decreasing_by exact nextToken_length _h

def lex (input : List Char) : Except LexError (List Token) := Lexer.lexFrom ⟨input, 0⟩

end Definitions

end KRust.Kore
