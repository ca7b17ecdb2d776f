import KRust.Kore.Lexer

/-!
How a text splits into tokens: white space before a token, the token at the front of a
text, and the tokens of a text put together from pieces.
-/

set_option linter.unusedSectionVars false

namespace KRust.Kore

theorem byteLength_append (s t : List Char) :
    byteLength (s ++ t) = byteLength s + byteLength t := by
  simp [byteLength]

theorem byteLength_cons (c : Char) (s : List Char) :
    byteLength (c :: s) = c.utf8Size + byteLength s := by
  simp [byteLength]

namespace Lexer

theorem bumpWhile_append {test : Char → Bool} {before : List Char}
    (h : ∀ c ∈ before, test c = true) (rest : List Char) (offset : Nat) :
    (⟨before ++ rest, offset⟩ : Lexer).bumpWhile test
      = (⟨rest, offset + byteLength before⟩ : Lexer).bumpWhile test := by
  simp only [bumpWhile, List.dropWhile_append_of_pos h, List.takeWhile_append_of_pos h,
    byteLength_append, Nat.add_assoc]

theorem bumpWhile_stop {test : Char → Bool} {rest : List Char}
    (h : ∀ c ∈ rest.head?, test c = false) (offset : Nat) :
    (⟨rest, offset⟩ : Lexer).bumpWhile test = ⟨rest, offset⟩ := by
  cases rest with
  | nil => rfl
  | cons c rest =>
    have hc : test c = false := h c rfl
    simp [bumpWhile, hc, byteLength]

/-- White space before comments and tokens is read away first, so only what follows it
matters. -/
theorem skipTrivia_congr {l l' : Lexer}
    (h : l.bumpWhile isWhitespace = l'.bumpWhile isWhitespace) : l.skipTrivia = l'.skipTrivia := by
  rw [skipTrivia.eq_def, skipTrivia.eq_def l', h]

theorem skipTrivia_whitespace {before : List Char} (h : ∀ c ∈ before, isWhitespace c = true)
    (rest : List Char) (offset : Nat) :
    (⟨before ++ rest, offset⟩ : Lexer).skipTrivia
      = (⟨rest, offset + byteLength before⟩ : Lexer).skipTrivia :=
  skipTrivia_congr (bumpWhile_append h rest offset)

/-- A text that starts with no white space and no comment. -/
def Solid (text : List Char) : Prop := ∀ c ∈ text.head?, isWhitespace c = false ∧ c ≠ '/'

theorem skipTrivia_solid {text : List Char} (h : Solid text) (offset : Nat) :
    (⟨text, offset⟩ : Lexer).skipTrivia = .ok ⟨text, offset⟩ := by
  have hstop : (⟨text, offset⟩ : Lexer).bumpWhile isWhitespace = ⟨text, offset⟩ :=
    bumpWhile_stop (fun c hc => (h c hc).1) offset
  rw [skipTrivia.eq_def]
  split
  · rename_i rest heq
    rw [hstop] at heq
    subst heq
    exact absurd rfl (h '/' rfl).2
  · rename_i rest heq
    rw [hstop] at heq
    subst heq
    exact absurd rfl (h '/' rfl).2
  · rw [hstop]

theorem lexFrom_whitespace {before : List Char} (h : ∀ c ∈ before, isWhitespace c = true)
    (rest : List Char) (offset : Nat) :
    (⟨before ++ rest, offset⟩ : Lexer).lexFrom
      = (⟨rest, offset + byteLength before⟩ : Lexer).lexFrom := by
  have hnext : (⟨before ++ rest, offset⟩ : Lexer).nextToken
      = (⟨rest, offset + byteLength before⟩ : Lexer).nextToken := by
    rw [nextToken, nextToken, skipTrivia_whitespace h]
  rw [lexFrom.eq_def, lexFrom.eq_def ⟨rest, _⟩, hnext]

theorem lexFrom_nil (offset : Nat) : (⟨[], offset⟩ : Lexer).lexFrom = .ok [] := by
  have hnext : (⟨[], offset⟩ : Lexer).nextToken = .ok none := by
    have hsolid : Solid [] := by
      intro c hc
      cases hc
    rw [nextToken, skipTrivia_solid hsolid]
    rfl
  rw [lexFrom.eq_def]
  split <;> simp_all

theorem textTo_append (text rest : List Char) (offset offset' : Nat) :
    (⟨text ++ rest, offset⟩ : Lexer).textTo ⟨rest, offset'⟩ = text := by
  simp [textTo]

/-- The token at the front of a text, and the tokens of what follows it. -/
theorem lexFrom_token {text rest : List Char} {kind : TokenKind} {offset offset' : Nat}
    (hsolid : Solid (text ++ rest))
    (h : (⟨text ++ rest, offset⟩ : Lexer).scanToken
      = (⟨text ++ rest, offset⟩ : Lexer).emit ⟨rest, offset'⟩ kind) :
    (⟨text ++ rest, offset⟩ : Lexer).lexFrom
      = (⟨rest, offset'⟩ : Lexer).lexFrom.map (⟨kind, text, offset⟩ :: ·) := by
  have hnext : (⟨text ++ rest, offset⟩ : Lexer).nextToken
      = .ok (some (⟨kind, text, offset⟩, ⟨rest, offset'⟩)) := by
    rw [nextToken, skipTrivia_solid hsolid]
    show scanToken _ = _
    rw [h, emit, token, textTo_append]
  rw [lexFrom.eq_def]
  split
  · simp_all
  · simp_all
  · rename_i t now hok
    rw [hnext] at hok
    cases hok
    cases (⟨rest, offset'⟩ : Lexer).lexFrom <;> rfl

end Lexer

end KRust.Kore
