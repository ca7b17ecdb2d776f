import KRust.Kore.Grammar
import KRust.Kore.LiteralLaws
import KRust.Kore.Printer
import Mathlib.Data.List.Forall2

/-!
What the printer writes: in every layout the text of a construct splits into exactly the
lexemes that the grammar spells it with.
-/

set_option linter.unusedSectionVars false

namespace KRust.Kore

section Lexing

/-- A text before which a word ends. -/
def Stops (text : List Char) : Prop := ∀ c ∈ text.head?, isIdChar c = false

/-- A text and the lexemes it splits into. -/
inductive Spelled : List Char → List Lexeme → Prop where
  | nil : Spelled [] []
  | space {c : Char} {text : List Char} {ls : List Lexeme} :
    isWhitespace c = true → Spelled text ls → Spelled (c :: text) ls
  | mark {c : Char} {kind : TokenKind} {text : List Char} {ls : List Lexeme} :
    punctuation c = some kind → Spelled text ls → Spelled (c :: text) ((kind, [c]) :: ls)
  | colon {text : List Char} {ls : List Lexeme} :
    text.head? ≠ some '=' → Spelled text ls → Spelled (':' :: text) (colon :: ls)
  | walrus {text : List Char} {ls : List Lexeme} :
    Spelled text ls → Spelled (':' :: '=' :: text) (walrus :: ls)
  | word {kind : TokenKind} {text rest : List Char} {ls : List Lexeme} :
    Word kind text → Stops rest → Spelled rest ls → Spelled (text ++ rest) ((kind, text) :: ls)
  | literal {value : KoreString} {encoding : LiteralEncoding} {text : List Char}
    {ls : List Lexeme} :
    Spelled text ls → Spelled (quoteAs value encoding ++ text) (literal value encoding :: ls)

theorem bumpWhile_word {text rest : List Char} (htext : ∀ c ∈ text, isIdChar c = true)
    (hrest : Stops rest) (offset : Nat) :
    (⟨text ++ rest, offset⟩ : Lexer).bumpWhile isIdChar
      = ⟨rest, offset + byteLength text⟩ := by
  rw [Lexer.bumpWhile_append htext, Lexer.bumpWhile_stop hrest]

theorem isIdChar_of_isAlpha {c : Char} (h : c.isAlpha = true) : isIdChar c = true := by
  simp [isIdChar, Char.isAlphanum, h]

/-- Most characters start a mark or a plain word. -/
theorem scanToken_other {c : Char} (hc : c ∉ [':', '"', '\\', '@']) (rest : List Char)
    (offset : Nat) :
    (⟨c :: rest, offset⟩ : Lexer).scanToken =
      match punctuation c with
      | some kind => (⟨c :: rest, offset⟩ : Lexer).emit ⟨rest, offset + 1⟩ kind
      | none =>
        if c.isAlpha then
          let now := (⟨rest, offset + 1⟩ : Lexer).bumpWhile isIdChar
          (⟨c :: rest, offset⟩ : Lexer).emit now
            (classifyId ((⟨c :: rest, offset⟩ : Lexer).textTo now))
        else .error ⟨offset, "unexpected character"⟩ := by
  simp only [List.mem_cons, List.not_mem_nil, or_false, not_or] at hc
  rw [Lexer.scanToken]
  split <;> rename_i heq <;> cases heq <;> first | rfl | simp_all

theorem isAlpha_other {c : Char} (h : c.isAlpha = true) :
    c ∉ [':', '"', '\\', '@'] ∧ punctuation c = none := by
  have hmarks : ∀ d ∈ [':', '"', '\\', '@', ',', '(', ')', '\x7b', '\x7d', '[', ']'],
      d.isAlpha = false := List.forall_iff_forall_mem.mp (by decide)
  have hne : ∀ d ∈ [':', '"', '\\', '@', ',', '(', ')', '\x7b', '\x7d', '[', ']'], c ≠ d := by
    rintro d hd rfl
    rw [hmarks c hd] at h
    cases h
  constructor
  · intro hmem
    exact hne c (List.mem_append_left [',', '(', ')', '\x7b', '\x7d', '[', ']'] hmem) rfl
  · unfold punctuation
    split <;> first | rfl | exact absurd rfl (hne _ (by decide))

theorem scanPrefixedId_word {mark text rest : List Char} {offset offset' : Nat}
    {classify : List Char → TokenKind} (h : IsIdentifier text) (hrest : Stops rest) :
    (⟨mark ++ text ++ rest, offset⟩ : Lexer).scanPrefixedId ⟨text ++ rest, offset'⟩ classify
      = (⟨mark ++ text ++ rest, offset⟩ : Lexer).emit ⟨rest, offset' + byteLength text⟩
        (classify (mark ++ text)) := by
  obtain ⟨c, tail, rfl, hc, htail⟩ := h
  have hall : ∀ d ∈ c :: tail, isIdChar d = true :=
    List.forall_mem_cons.mpr ⟨isIdChar_of_isAlpha hc, htail⟩
  rw [Lexer.scanPrefixedId, if_pos (by simpa [isIdStart] using hc), bumpWhile_word hall hrest,
    Lexer.textTo_append]

/-- The lexer reads a word that a text starts with to its end. -/
theorem scanToken_word {kind : TokenKind} {text rest : List Char} (h : Word kind text)
    (hrest : Stops rest) (offset : Nat) :
    ∃ offset', (⟨text ++ rest, offset⟩ : Lexer).scanToken
      = (⟨text ++ rest, offset⟩ : Lexer).emit ⟨rest, offset'⟩ kind := by
  cases h with
  | plain hid =>
    obtain ⟨c, tail, rfl, hc, htail⟩ := hid
    obtain ⟨hother, hmark⟩ := isAlpha_other hc
    have htext := Lexer.textTo_append (c :: tail) rest offset (offset + 1 + byteLength tail)
    rw [List.cons_append] at htext ⊢
    rw [scanToken_other hother, hmark]
    have hletter : c.isAlpha = true := hc
    dsimp only
    rw [if_pos hletter, bumpWhile_word htail hrest, htext]
    exact ⟨_, rfl⟩
  | @escaped text hid =>
    have hscan := @scanPrefixedId_word ['\\'] text rest offset (offset + 1) classifySymbol hid hrest
    obtain ⟨c, tail, rfl, hc, htail⟩ := hid
    refine ⟨_, .trans ?_ hscan⟩
    have hat : c ≠ '@' := by
      rintro rfl
      exact absurd hc (by decide)
    show Lexer.scanToken ⟨'\\' :: c :: (tail ++ rest), offset⟩ = _
    rw [Lexer.scanToken]
    split <;> rename_i heq <;> cases heq <;> first | rfl | simp_all
  | @setVariable text hid =>
    exact ⟨_, @scanPrefixedId_word ['@'] text rest offset (offset + 1) (fun _ => .setVarId) hid hrest⟩
  | @escapedSetVariable text hid =>
    exact ⟨_, @scanPrefixedId_word ['\\', '@'] text rest offset (offset + 2) (fun _ => .setVarId)
      hid hrest⟩

/-- The letter or mark that a word starts with. -/
theorem Word.head {kind : TokenKind} {text : List Char} (h : Word kind text) :
    ∃ c rest, text = c :: rest ∧ (c.isAlpha = true ∨ c = '\\' ∨ c = '@') := by
  cases h with
  | plain hid =>
    obtain ⟨c, rest, rfl, hc, -⟩ := hid
    exact ⟨c, rest, rfl, .inl hc⟩
  | escaped hid => exact ⟨_, _, rfl, .inr (.inl rfl)⟩
  | setVariable hid => exact ⟨_, _, rfl, .inr (.inr rfl)⟩
  | escapedSetVariable hid => exact ⟨_, _, rfl, .inr (.inl rfl)⟩

theorem lexFrom_spelled {text : List Char} {ls : List Lexeme} (h : Spelled text ls)
    (offset : Nat) :
    ∃ tokens, (⟨text, offset⟩ : Lexer).lexFrom = .ok tokens ∧ tokens.map Token.lexeme = ls := by
  -- a token at the front, then the tokens of what follows it
  have hcons : ∀ {text rest : List Char} {kind : TokenKind} {ls : List Lexeme} {offset offset' : Nat},
      Lexer.Solid (text ++ rest) →
      (⟨text ++ rest, offset⟩ : Lexer).scanToken
        = (⟨text ++ rest, offset⟩ : Lexer).emit ⟨rest, offset'⟩ kind →
      (∃ tokens, (⟨rest, offset'⟩ : Lexer).lexFrom = .ok tokens ∧ tokens.map Token.lexeme = ls) →
      ∃ tokens, (⟨text ++ rest, offset⟩ : Lexer).lexFrom = .ok tokens ∧
        tokens.map Token.lexeme = (kind, text) :: ls := by
    rintro text rest kind ls offset offset' hsolid hscan ⟨tokens, hlex, htokens⟩
    refine ⟨⟨kind, text, offset⟩ :: tokens, ?_, ?_⟩
    · rw [Lexer.lexFrom_token hsolid hscan, hlex]
      rfl
    · rw [List.map_cons, htokens]
      rfl
  induction h generalizing offset with
  | nil => exact ⟨[], Lexer.lexFrom_nil offset, rfl⟩
  | @space c text ls hc _ ih =>
    have hspace := @Lexer.lexFrom_whitespace [c] (by simpa using hc) text offset
    rw [List.singleton_append] at hspace
    rw [hspace]
    exact ih _
  | @mark c kind text ls hmark _ ih =>
    have hother : c ∉ [':', '"', '\\', '@'] ∧ Lexer.Solid (c :: text) := by
      unfold punctuation at hmark
      split at hmark <;> cases hmark <;> refine ⟨by decide, ?_⟩ <;> rintro _ ⟨⟩ <;> decide
    have hscan := scanToken_other hother.1 text offset
    rw [hmark] at hscan
    exact @hcons [c] text kind ls offset _ hother.2 hscan (ih _)
  | @colon text ls hne _ ih =>
    have hsolid : Lexer.Solid (':' :: text) := by
      rintro _ ⟨⟩
      decide
    have hscan : (⟨':' :: text, offset⟩ : Lexer).scanToken
        = (⟨':' :: text, offset⟩ : Lexer).emit ⟨text, offset + 1⟩ .colon := by
      rw [Lexer.scanToken]
      split <;> rename_i heq <;> cases heq <;> first | rfl | simp_all
    exact @hcons [':'] text .colon ls offset _ hsolid hscan (ih _)
  | @walrus text ls _ ih =>
    have hsolid : Lexer.Solid (':' :: '=' :: text) := by
      rintro _ ⟨⟩
      decide
    exact @hcons [':', '='] text .walrus ls offset (offset + 2) hsolid rfl (ih _)
  | @word kind text rest ls hword hstops _ ih =>
    have hsolid : Lexer.Solid (text ++ rest) := by
      obtain ⟨c, tail, rfl, hc⟩ := hword.head
      rintro _ ⟨⟩
      rcases hc with hc | rfl | rfl
      · constructor
        · simp only [isWhitespace, Bool.or_eq_false_iff, decide_eq_false_iff_not]
          refine ⟨⟨⟨⟨⟨?_, ?_⟩, ?_⟩, ?_⟩, ?_⟩, ?_⟩ <;> rintro rfl <;> cases hc
        · rintro rfl
          cases hc
      · decide
      · decide
    obtain ⟨offset', hscan⟩ := scanToken_word hword hstops offset
    exact hcons hsolid hscan (ih _)
  | @literal value encoding text ls _ ih =>
    exact hcons (solid_quoteAs value encoding text) (scanToken_quoteAs value encoding text offset)
      (ih _)

theorem word_escaped {kind : TokenKind} {text : List Char} (hid : identifierProblems text = [])
    (hkind : classifySymbol ('\\' :: text) = kind) : Word kind ('\\' :: text) := by
  rw [← hkind]
  exact .escaped (identifierProblems_eq_nil.mp hid)

theorem word_plain {kind : TokenKind} {text : List Char} (hid : identifierProblems text = [])
    (hkind : classifyId text = kind) : Word kind text := by
  rw [← hkind]
  exact .plain (identifierProblems_eq_nil.mp hid)

end Lexing

section Layouts

/-- Every layout of the ops splits into the lexemes. -/
def Prints (ops : List Op) (ls : List Lexeme) : Prop := ∀ out, Layout ops out → Spelled out ls

/-- The first character of every layout, if there is one, is as said. -/
def Heads (P : Char → Prop) (ops : List Op) : Prop := ∀ out, Layout ops out → ∀ c ∈ out.head?, P c

/-- A character before which a word ends. -/
def IsStop (c : Char) : Prop := isIdChar c = false

variable {ops : List Op} {ls : List Lexeme} {P : Char → Prop}

theorem prints_nil : Prints [] [] := by
  rintro out ⟨⟩
  exact .nil

theorem prints_text {value : List Char} (h : ∀ rest, Layout ops rest → Spelled (value ++ rest) ls) :
    Prints (.text value :: ops) ls := by
  rintro out (_ | ⟨⟨⟩, hrest⟩)
  exact h _ hrest

theorem spelled_spaces {text : List Char} (count : UInt64) (h : Spelled text ls) :
    Spelled (spaces count ++ text) ls := by
  unfold spaces
  induction count.toNat with
  | zero => exact h
  | succ n ih => exact .space (by decide) ih

theorem prints_newline {text : List Char} (count : UInt64) (h : Spelled text ls) :
    Spelled ('\n' :: spaces count ++ text) ls :=
  .space (by decide) (spelled_spaces count h)

theorem prints_line {flat : List Char} (hflat : flat = [] ∨ flat = [' ']) (h : Prints ops ls) :
    Prints (.line flat :: ops) ls := by
  rintro out (_ | ⟨hline, hrest⟩)
  cases hline with
  | flat =>
    rcases hflat with rfl | rfl
    · exact h _ hrest
    · exact .space (by decide) (h _ hrest)
  | broken => exact prints_newline _ (h _ hrest)

theorem prints_hardLine (h : Prints ops ls) : Prints (.hardLine :: ops) ls := by
  rintro out (_ | ⟨⟨⟩, hrest⟩)
  exact prints_newline _ (h _ hrest)

/-- The marks of nests and groups write nothing. -/
def Op.Silent : Op → Prop
  | .nestStart _ | .nestEnd _ | .groupStart | .groupEnd => True
  | _ => False

theorem layout_silent {op : Op} (hop : op.Silent) {out : List Char} (h : Layout (op :: ops) out) :
    Layout ops out := by
  rcases h with _ | ⟨hwrites, hrest⟩
  cases hwrites <;> first | exact hrest | cases hop

theorem prints_silent {op : Op} (hop : op.Silent) (h : Prints ops ls) : Prints (op :: ops) ls :=
  fun _ hout => h _ (layout_silent hop hout)

theorem heads_silent {op : Op} (hop : op.Silent) (h : Heads P ops) : Heads P (op :: ops) :=
  fun _ hout => h _ (layout_silent hop hout)

theorem heads_text {c : Char} {value : List Char} (hc : P c) :
    Heads P (.text (c :: value) :: ops) := by
  rintro out (_ | ⟨⟨⟩, hrest⟩) _ ⟨⟩
  exact hc

theorem heads_line {flat : List Char} (hflat : flat = [] ∨ flat = [' ']) (hspace : P ' ')
    (hnewline : P '\n') (h : Heads P ops) : Heads P (.line flat :: ops) := by
  rintro out (_ | ⟨hline, hrest⟩)
  cases hline with
  | flat =>
    rcases hflat with rfl | rfl
    · exact h _ hrest
    · rintro _ ⟨⟩
      exact hspace
  | broken =>
    rintro _ ⟨⟩
    exact hnewline

theorem heads_nil : Heads P [] := by
  rintro out ⟨⟩ _ ⟨⟩

/-- A text that is one mark. -/
theorem prints_mark {c : Char} {kind : TokenKind} (hmark : punctuation c = some kind)
    (h : Prints ops ls) : Prints (.text [c] :: ops) ((kind, [c]) :: ls) :=
  prints_text fun rest hrest => .mark hmark (h rest hrest)

/-- The marks of a delimited list. -/
structure Delimiters (opening closing : Char) (first last : TokenKind) : Prop where
  first_mark : punctuation opening = some first
  last_mark : punctuation closing = some last
  first_stop : IsStop opening
  last_stop : IsStop closing

theorem delimiters_braces : Delimiters '\x7b' '\x7d' .lBrace .rBrace :=
  ⟨rfl, rfl, rfl, rfl⟩

theorem delimiters_parentheses : Delimiters '(' ')' .lParen .rParen :=
  ⟨rfl, rfl, rfl, rfl⟩

theorem delimiters_brackets : Delimiters '[' ']' .lBracket .rBracket :=
  ⟨rfl, rfl, rfl, rfl⟩

end Layouts

namespace Doc

section Writes

/-- The document prints the lexemes in every layout; where they can end with a word,
something that ends the word has to follow. -/
structure Writes (doc : List Op) (lx : List Lexeme) (word : Bool) : Prop where
  balanced : Balanced doc
  prints : ∀ {after ls}, (word = true → Heads IsStop after) → Prints after ls →
    Prints (doc ++ after) (lx ++ ls)

/-- A document whose text ends a word before it. -/
def EndsWord (doc : List Op) : Prop := ∀ after, Heads IsStop (doc ++ after)

variable {s t : List Op} {la lb : List Lexeme} {word word' : Bool}

theorem Writes.append (hs : Writes s la word) (ht : Writes t lb word')
    (hword : word = true → EndsWord t) : Writes (s ++ t) (la ++ lb) word' := by
  constructor
  · exact hs.balanced.append ht.balanced
  · intro after ls hafter hprints
    rw [List.append_assoc, List.append_assoc]
    exact hs.prints (fun h => hword h after) (ht.prints hafter hprints)

theorem Writes.weaken (h : Writes s la false) : Writes s la word :=
  ⟨h.balanced, fun _ => h.prints (by simp)⟩

theorem writes_text {value : List Char}
    (h : ∀ rest ls, (word = true → Stops rest) → Spelled rest ls → Spelled (value ++ rest) (la ++ ls)) :
    Writes [Op.text value] la word := by
  constructor
  · exact .text value .nil
  · intro after ls hafter hprints
    exact prints_text fun rest hrest => h rest ls (fun hw => hafter hw rest hrest) (hprints rest hrest)

theorem endsWord_text {c : Char} {value : List Char} (hc : IsStop c) :
    EndsWord (.text (c :: value) :: s) :=
  fun _ => heads_text hc

theorem writes_grouped (h : Writes s la word) :
    Writes (Op.groupStart :: s ++ [Op.groupEnd]) la word := by
  constructor
  · exact h.balanced.grouped
  · intro after ls hafter hprints
    rw [List.cons_append, List.cons_append, List.append_assoc]
    refine prints_silent trivial ?_
    apply h.prints
    · exact fun hw => heads_silent trivial (hafter hw)
    · exact prints_silent trivial hprints

theorem writes_separator : Writes [Op.text [','], .line [' ']] [comma] false := by
  constructor
  · exact .text _ (.op (by simp) (by simp) .nil)
  · intro after ls _ hprints
    exact prints_mark rfl (prints_line (.inr rfl) hprints)

/-- A list between its marks, as one nested group. -/
def enclosed (indent : UInt64) (opening closing : Char) (inner : List Op) : List Op :=
  Op.groupStart :: ((Op.text [opening] :: Op.nestStart indent :: Op.line [] ::
    (inner ++ [Op.nestEnd indent, .line [], .text [closing]])) ++ [Op.groupEnd])

variable {opening closing : Char} {first last : TokenKind}

theorem writes_empty (hmarks : Delimiters opening closing first last) :
    Writes [Op.text [opening, closing]] [(first, [opening]), (last, [closing])] false :=
  writes_text fun _ _ _ hrest => .mark hmarks.first_mark (.mark hmarks.last_mark hrest)

theorem writes_enclosed {indent : UInt64} (hmarks : Delimiters opening closing first last)
    (h : Writes s la true) :
    Writes (enclosed indent opening closing s)
      ((first, [opening]) :: (la ++ [(last, [closing])])) false := by
  constructor
  · apply Balanced.grouped
    apply Balanced.text
    refine .op (by simp) (by simp) (.op (by simp) (by simp) (h.balanced.append ?_))
    exact .op (by simp) (by simp) (.op (by simp) (by simp) (.text _ .nil))
  · intro after ls _ hprints
    simp only [enclosed, List.cons_append, List.append_assoc, List.nil_append]
    refine prints_silent trivial ?_
    apply prints_mark hmarks.first_mark
    refine prints_silent trivial ?_
    apply prints_line (.inl rfl)
    apply h.prints
    · intro _
      exact heads_silent trivial (heads_line (.inl rfl) rfl rfl (heads_text hmarks.last_stop))
    · refine prints_silent trivial ?_
      apply prints_line (.inl rfl)
      exact prints_mark hmarks.last_mark (prints_silent trivial hprints)

theorem endsWord_enclosed {indent : UInt64} (hmarks : Delimiters opening closing first last) :
    EndsWord (enclosed indent opening closing s) :=
  fun _ => heads_silent trivial (heads_text hmarks.first_stop)

end Writes

end Doc

namespace SyntaxTask

section Ops

variable {indent : UInt64}

@[simp] theorem ops_nil : ops indent [] = [] := by
  rw [ops.eq_def]

theorem ops_leaf {task : SyntaxTask} {o : Op} (h : task.op indent = some o)
    (stack : List SyntaxTask) : ops indent (task :: stack) = o :: ops indent stack := by
  rw [ops.eq_def]
  dsimp only
  split
  · rename_i o' h'
    rw [h] at h'
    cases h'
    rfl
  · rename_i h'
    rw [h] at h'
    cases h'

@[simp] theorem ops_text (value : List Char) (stack : List SyntaxTask) :
    ops indent (.text value :: stack) = .text value :: ops indent stack := ops_leaf rfl stack

@[simp] theorem ops_line (flat : List Char) (stack : List SyntaxTask) :
    ops indent (.line flat :: stack) = .line flat :: ops indent stack := ops_leaf rfl stack

@[simp] theorem ops_nestStart (stack : List SyntaxTask) :
    ops indent (.nestStart :: stack) = .nestStart indent :: ops indent stack := ops_leaf rfl stack

@[simp] theorem ops_nestEnd (stack : List SyntaxTask) :
    ops indent (.nestEnd :: stack) = .nestEnd indent :: ops indent stack := ops_leaf rfl stack

@[simp] theorem ops_groupStart (stack : List SyntaxTask) :
    ops indent (.groupStart :: stack) = .groupStart :: ops indent stack := ops_leaf rfl stack

@[simp] theorem ops_groupEnd (stack : List SyntaxTask) :
    ops indent (.groupEnd :: stack) = .groupEnd :: ops indent stack := ops_leaf rfl stack

theorem ops_node {task : SyntaxTask} (h : task.op indent = none) (stack : List SyntaxTask) :
    ops indent (task :: stack) = ops indent (expand task ++ stack) := by
  rw [ops.eq_def]
  dsimp only
  split
  · rename_i o' h'
    rw [h] at h'
    cases h'
  · rfl

/-- The ops of a stack are those of its tasks one after the other. -/
theorem ops_append (s t : List SyntaxTask) :
    ops indent (s ++ t) = ops indent s ++ ops indent t := by
  fun_induction ops indent s with
  | case1 => rfl
  | case2 task stack o h ih => rw [List.cons_append, ops_leaf h, ih, List.cons_append]
  | case3 task stack h ih =>
    rw [List.cons_append, ops_node h, ← List.append_assoc]
    exact ih

theorem ops_expand {task : SyntaxTask} (h : task.op indent = none) :
    ops indent [task] = ops indent (expand task) := by
  rw [ops_node h, List.append_nil]

end Ops

section Writes

variable {indent : UInt64}

/-- The tasks print the lexemes. -/
abbrev Writes (indent : UInt64) (stack : List SyntaxTask) (lx : List Lexeme) (word : Bool) : Prop :=
  Doc.Writes (ops indent stack) lx word

/-- Tasks whose text ends a word before it. -/
abbrev EndsWord (indent : UInt64) (stack : List SyntaxTask) : Prop :=
  Doc.EndsWord (ops indent stack)

variable {s t : List SyntaxTask} {la lb : List Lexeme} {word word' : Bool}

theorem Writes.append (hs : Writes indent s la word) (ht : Writes indent t lb word')
    (hword : word = true → EndsWord indent t) : Writes indent (s ++ t) (la ++ lb) word' := by
  rw [Writes, ops_append]
  exact Doc.Writes.append hs ht hword

/-- A node prints what its expansion prints. -/
theorem Writes.of_expand {task : SyntaxTask} (h : task.op indent = none)
    (hwrites : Writes indent (expand task) la word) : Writes indent [task] la word := by
  rw [Writes, ops_expand h]
  exact hwrites

theorem Writes.weaken (h : Writes indent s la false) : Writes indent s la word :=
  Doc.Writes.weaken h

theorem writes_text {value : List Char}
    (h : ∀ rest ls, (word = true → Stops rest) → Spelled rest ls → Spelled (value ++ rest) (la ++ ls)) :
    Writes indent [SyntaxTask.text value] la word := by
  rw [Writes, ops_text, ops_nil]
  exact Doc.writes_text h

theorem writes_name {kind : TokenKind} {name : List Char} (h : Word kind name) :
    Writes indent [SyntaxTask.text name] [(kind, name)] true :=
  writes_text fun _ _ hstop hrest => .word h (hstop rfl) hrest

theorem writes_mark {c : Char} {kind : TokenKind} (h : punctuation c = some kind) :
    Writes indent [SyntaxTask.text [c]] [(kind, [c])] false :=
  writes_text fun _ _ _ hrest => .mark h hrest

theorem endsWord_text {c : Char} {value : List Char} {stack : List SyntaxTask} (hc : IsStop c) :
    EndsWord indent (.text (c :: value) :: stack) := by
  rw [EndsWord, ops_text]
  exact Doc.endsWord_text hc

/-- A group around tasks changes nothing of what they print. -/
theorem writes_grouped (h : Writes indent s la word) : Writes indent (grouped s) la word := by
  have hops : ops indent (grouped s) = Op.groupStart :: ops indent s ++ [Op.groupEnd] := by
    simp [grouped, ops_append]
  rw [Writes, hops]
  exact Doc.writes_grouped h

theorem writes_separate {items : List SyntaxTask} {lxs : List (List Lexeme)} (hne : items ≠ [])
    (h : List.Forall₂ (fun item lx => Writes indent [item] lx true) items lxs) :
    Writes indent (separate items) (separated lxs) true := by
  induction h with
  | nil => exact absurd rfl hne
  | @cons item lx items lxs hitem hitems ih =>
    cases hitems with
    | nil => exact hitem
    | @cons item' lx' items lxs hitem' hitems =>
      have hseparator : Writes indent [SyntaxTask.text [','], .line [' ']] [comma] false := by
        simp only [Writes, ops_text, ops_line, ops_nil]
        exact Doc.writes_separator
      have hrest := hseparator.append (ih (by simp)) (by simp)
      exact hitem.append hrest fun _ => endsWord_text rfl

theorem writes_delimited {opening closing : Char} {first last : TokenKind}
    (hmarks : Delimiters opening closing first last) {items : List SyntaxTask}
    {lxs : List (List Lexeme)}
    (h : List.Forall₂ (fun item lx => Writes indent [item] lx true) items lxs) :
    Writes indent [SyntaxTask.delimited opening closing items]
      ((first, [opening]) :: (separated lxs ++ [(last, [closing])])) false := by
  apply Writes.of_expand rfl
  rw [expand]
  split
  · rename_i hempty
    cases h with
    | nil =>
      rw [Writes, ops_text, ops_nil]
      exact Doc.writes_empty hmarks
    | cons => cases hempty
  · rename_i hne
    have hops : ops indent ([SyntaxTask.groupStart, .text [opening], .nestStart, .line []]
          ++ separate items ++ [SyntaxTask.nestEnd, .line [], .text [closing], .groupEnd])
        = Doc.enclosed indent opening closing (ops indent (separate items)) := by
      simp [ops_append, Doc.enclosed]
    rw [Writes, hops]
    exact Doc.writes_enclosed hmarks (writes_separate (by simpa using hne) h)

theorem endsWord_delimited {opening closing : Char} {first last : TokenKind}
    (hmarks : Delimiters opening closing first last) {items stack : List SyntaxTask} :
    EndsWord indent (.delimited opening closing items :: stack) := by
  rw [EndsWord, ops_node rfl, expand]
  split
  · exact endsWord_text hmarks.first_stop
  · simp only [List.cons_append, ops_groupStart, ops_text]
    exact fun after => heads_silent trivial (heads_text hmarks.first_stop)

end Writes

section Nodes

variable {indent : UInt64}

/-- The items of a list print their lexemes one by one. -/
theorem forall₂_map {α : Type} {as : List α} {task : α → SyntaxTask} {lexemes : α → List Lexeme}
    (h : ∀ a ∈ as, Writes indent [task a] (lexemes a) true) :
    List.Forall₂ (fun item lx => Writes indent [item] lx true) (as.map task) (as.map lexemes) := by
  induction as with
  | nil => exact .nil
  | cons a as ih =>
    rw [List.forall_mem_cons] at h
    exact .cons h.1 (ih h.2)

theorem writes_sort {s : KoreSort} (h : s.Named) : Writes indent [.sort s] s.lexemes true := by
  induction h with
  | @var name hname =>
    rw [KoreSort.lexemes_var]
    exact .of_expand rfl (writes_name hname)
  | @application name arguments hname _ ih =>
    rw [KoreSort.lexemes_application]
    have harguments := writes_delimited delimiters_braces (forall₂_map ih)
    exact .of_expand rfl
      ((writes_name hname).append harguments.weaken fun _ => endsWord_delimited delimiters_braces)

theorem writes_sorts {sorts : List KoreSort} (h : ∀ s ∈ sorts, s.Named) :
    Writes indent [braces (sorts.map .sort)] (braced (sorts.map KoreSort.lexemes)) false :=
  writes_delimited delimiters_braces (forall₂_map fun s hs => writes_sort (h s hs))

theorem writes_symbol {symbol : Symbol} (h : symbol.Named) :
    Writes indent [.symbol symbol] symbol.lexemes false :=
  .of_expand rfl
    ((writes_name h.1).append (writes_sorts h.2) fun _ => endsWord_delimited delimiters_braces)

theorem heads_sort {s : KoreSort} (h : s.Named) (after : List Op) :
    Heads (· ≠ '=') (ops indent [.sort s] ++ after) := by
  have hname : ∀ {name : String} {stack : List SyntaxTask}, IsName name →
      Heads (· ≠ '=') (ops indent (.text name.toList :: stack) ++ after) := by
    intro name stack hname
    obtain ⟨c, rest, htext, hc⟩ := hname.head
    rw [htext, ops_text]
    apply heads_text
    rintro rfl
    revert hc
    decide
  cases h with
  | var hvar =>
    rw [ops_expand rfl]
    exact hname hvar
  | application happlication _ =>
    rw [ops_expand rfl]
    exact hname happlication

theorem writes_variable {v : Variable} (h : v.Named) : Writes indent [.var v] v.lexemes true := by
  have hsort : Writes indent [.sort v.sort] v.sort.lexemes true := writes_sort h.2
  apply Writes.of_expand rfl
  have hops : ops indent (expand (.var v))
      = .text (v.name.toList ++ [':']) :: ops indent [.sort v.sort] := by
    rw [expand, ops_text]
  constructor
  · rw [hops]
    exact .text _ hsort.balanced
  · intro after ls hafter hprints
    rw [hops]
    apply prints_text
    intro rest hrest
    rw [List.append_assoc]
    apply Spelled.word h.1
    · rintro _ ⟨⟩
      rfl
    · refine Spelled.colon ?_ (hsort.prints hafter hprints rest hrest)
      intro hequals
      exact heads_sort h.2 after rest hrest '=' hequals rfl

/-- The word of a connective with the brace that follows it. -/
theorem writes_head {kind : TokenKind} {text : String} (head : String) (hword : Word kind text.toList)
    (hhead : head.toList = text.toList ++ ['\x7b']) :
    Writes indent [SyntaxTask.word head] [Kore.word kind text, lBrace] false := by
  apply writes_text
  intro rest ls _ hrest
  rw [hhead, List.append_assoc]
  apply Spelled.word hword
  · rintro _ ⟨⟩
    rfl
  · exact .mark rfl hrest

theorem endsWord_brace (stack : List SyntaxTask) :
    EndsWord indent (SyntaxTask.text ['\x7d'] :: stack) :=
  endsWord_text rfl

/-- A connective with one sort and its operands. -/
theorem writes_connective {kind : TokenKind} {text head : String} {s : KoreSort}
    {items : List SyntaxTask} {lxs : List (List Lexeme)} (hword : Word kind text.toList)
    (hhead : head.toList = text.toList ++ ['\x7b']) (hs : s.Named)
    (h : List.Forall₂ (fun item lx => Writes indent [item] lx true) items lxs) :
    Writes indent (grouped [SyntaxTask.word head, .sort s, .text ['\x7d'], parentheses items])
      (connective kind text s lxs) false := by
  have hoperands := writes_delimited delimiters_parentheses h
  have hclosed := (writes_mark (c := '\x7d') rfl).append hoperands (by simp)
  have hsorted := (writes_sort hs).append hclosed fun _ => endsWord_brace _
  have hall := (writes_head head hword hhead).append hsorted (by simp)
  have hlexemes : connective kind text s lxs
      = [Kore.word kind text, lBrace] ++ (s.lexemes ++ ([(.rBrace, ['\x7d'])] ++
        (.lParen, ['(']) :: (separated lxs ++ [(.rParen, [')'])]))) := by
    simp [connective, parenthesized, lParen, rParen, rBrace]
  rw [hlexemes]
  exact writes_grouped hall

theorem writes_fixpoint {kind : TokenKind} {text head : String} {items : List SyntaxTask}
    {lxs : List (List Lexeme)} (hword : Word kind text.toList)
    (hhead : head.toList = text.toList ++ ['\x7b', '\x7d'])
    (h : List.Forall₂ (fun item lx => Writes indent [item] lx true) items lxs) :
    Writes indent (grouped [SyntaxTask.word head, parentheses items])
      (Kore.fixpoint kind text lxs) false := by
  have hoperands := writes_delimited delimiters_parentheses h
  have hstart : Writes indent [SyntaxTask.word head] [Kore.word kind text, lBrace, rBrace] false := by
    apply writes_text
    intro rest ls _ hrest
    rw [hhead, List.append_assoc]
    apply Spelled.word hword
    · rintro _ ⟨⟩
      rfl
    · exact .mark rfl (.mark rfl hrest)
  exact writes_grouped (hstart.append hoperands (by simp))

theorem writes_predicate {kind : TokenKind} {text : String} {operand result : KoreSort}
    {items : List SyntaxTask} {lxs : List (List Lexeme)} (hword : Word kind text.toList)
    (hoperand : operand.Named) (hresult : result.Named)
    (h : List.Forall₂ (fun item lx => Writes indent [item] lx true) items lxs) :
    Writes indent (grouped [SyntaxTask.word text, braces [.sort operand, .sort result],
      parentheses items]) (predicate kind text operand result lxs) false := by
  have hoperands := writes_delimited delimiters_parentheses h
  have hsorts : Writes indent [braces [.sort operand, .sort result]]
      (braced [operand.lexemes, result.lexemes]) false :=
    @writes_sorts indent [operand, result] (by simp [hoperand, hresult])
  have hstart : Writes indent [SyntaxTask.word text] [Kore.word kind text] true := writes_name hword
  have hall := hstart.append (hsorts.append hoperands (by simp))
    fun _ => endsWord_delimited delimiters_braces
  have hlexemes : predicate kind text operand result lxs
      = [Kore.word kind text] ++ (braced [operand.lexemes, result.lexemes]
        ++ parenthesized lxs) := by
    simp [predicate]
  rw [hlexemes]
  exact writes_grouped hall

theorem writes_associative {side : Associativity} {symbol : Symbol} {items : List SyntaxTask}
    {lxs : List (List Lexeme)} {head : String} (hsymbol : symbol.Named)
    (hword : Word (associativeWord side).1 (associativeWord side).2)
    (hhead : head.toList = (associativeWord side).2 ++ ['\x7b', '\x7d', '('])
    (h : List.Forall₂ (fun item lx => Writes indent [item] lx true) items lxs) :
    Writes indent (grouped [SyntaxTask.word head, .symbol symbol, parentheses items, .text [')']])
      ([associativeWord side, lBrace, rBrace, lParen] ++ symbol.lexemes ++ parenthesized lxs
        ++ [rParen]) false := by
  have hstart : Writes indent [SyntaxTask.word head] [associativeWord side, lBrace, rBrace, lParen]
      false := by
    apply writes_text
    intro rest ls _ hrest
    rw [hhead, List.append_assoc]
    apply Spelled.word hword
    · rintro _ ⟨⟩
      rfl
    · exact .mark rfl (.mark rfl (.mark rfl hrest))
  have hend : Writes indent [SyntaxTask.text [')']] [rParen] false := writes_mark rfl
  have hoperands := (writes_delimited delimiters_parentheses h).append hend (by simp)
  have hall := hstart.append ((writes_symbol hsymbol).append hoperands (by simp)) (by simp)
  have hlexemes : [associativeWord side, lBrace, rBrace, lParen] ++ symbol.lexemes
        ++ parenthesized lxs ++ [rParen]
      = [associativeWord side, lBrace, rBrace, lParen] ++ (symbol.lexemes
        ++ (parenthesized lxs ++ [rParen])) := by
    simp
  rw [hlexemes]
  exact writes_grouped hall

/-- A constant: a connective without operands. -/
theorem writes_constant {kind : TokenKind} (text : String) {head : String} {s : KoreSort}
    (hword : Word kind text.toList) (hhead : head.toList = text.toList ++ ['\x7b'])
    (hs : s.Named) :
    Writes indent [SyntaxTask.word head, .sort s, SyntaxTask.word "\x7d()"]
      (connective kind text s []) false := by
  have hend : Writes indent [SyntaxTask.word "\x7d()"] [rBrace, lParen, rParen] false :=
    writes_text fun rest ls _ hrest => .mark rfl (.mark rfl (.mark rfl hrest))
  have hsorted := (writes_sort hs).append hend fun _ => endsWord_text rfl
  have hall := (writes_head head hword hhead).append hsorted (by simp)
  have hlexemes : connective kind text s []
      = [Kore.word kind text, lBrace] ++ (s.lexemes ++ [rBrace, lParen, rParen]) := by
    simp [connective, parenthesized, separated]
  rw [hlexemes]
  exact hall

theorem writes_domainValue {s : KoreSort} {value : KoreString} (hs : s.Named) :
    Writes indent [.pattern (.domainValue s value)] (Pattern.domainValue s value).lexemes false := by
  have hend : Writes indent
      [SyntaxTask.text ('\x7d' :: '(' :: quoteAs value (.ofDomainValue s) ++ [')'])]
      [rBrace, lParen, literal value (.ofDomainValue s), rParen] false := by
    apply writes_text
    intro rest ls _ hrest
    rw [List.cons_append, List.cons_append, List.cons_append, List.cons_append, List.append_assoc]
    exact .mark rfl (.mark rfl (.literal (.mark rfl hrest)))
  have hsorted := (writes_sort hs).append hend fun _ => endsWord_text rfl
  have hword : Word .mlDv "\\dv".toList := word_escaped (by decide) (by decide)
  have hall := (writes_head "\\dv\x7b" hword rfl).append hsorted (by simp)
  have hlexemes : (Pattern.domainValue s value).lexemes
      = [Kore.word .mlDv "\\dv", lBrace] ++ (s.lexemes
        ++ [rBrace, lParen, literal value (.ofDomainValue s), rParen]) := by
    rw [Pattern.lexemes_eq]
    simp [Pattern.spell, connective, parenthesized, separated]
  rw [hlexemes]
  exact .of_expand rfl hall

/-- The operands of a binder: the bound variable and the body. -/
theorem forall₂_binder {v : Variable} {body : Pattern} (hv : v.Named)
    (hbody : Writes indent [.pattern body] body.lexemes true) :
    List.Forall₂ (fun item lx => Writes indent [item] lx true) [.var v, .pattern body]
      [v.lexemes, body.lexemes] :=
  .cons (writes_variable hv) (.cons hbody .nil)

/-- Every pattern whose names are words prints its lexemes, one node after the other. -/
theorem writes_pattern (p : Pattern) (h : p.Named) :
    Writes indent [.pattern p] p.lexemes true := by
  have hchildren : ∀ c ∈ p.children, Writes indent [.pattern c] c.lexemes true :=
    fun c hc => writes_pattern c (h.child hc)
  have hroot := h.root
  have hitems := forall₂_map hchildren
  rw [Pattern.lexemes_eq]
  cases p with
  | string value =>
    apply Writes.of_expand rfl
    exact writes_text fun rest ls _ hrest => .literal hrest
  | var v => exact .of_expand rfl (writes_variable hroot)
  | application symbol arguments =>
    apply Writes.of_expand rfl
    exact (writes_symbol hroot).append (writes_delimited delimiters_parentheses hitems).weaken
      (by simp)
  | top s =>
    apply Writes.of_expand rfl
    exact (writes_constant "\\top" (word_escaped (by decide) (by decide)) rfl hroot).weaken
  | bottom s =>
    apply Writes.of_expand rfl
    exact (writes_constant "\\bottom" (word_escaped (by decide) (by decide)) rfl hroot).weaken
  | and s arguments =>
    apply Writes.of_expand rfl
    exact (writes_connective (word_escaped (by decide) (by decide)) rfl hroot hitems).weaken
  | or s arguments =>
    apply Writes.of_expand rfl
    exact (writes_connective (word_escaped (by decide) (by decide)) rfl hroot hitems).weaken
  | not s argument =>
    apply Writes.of_expand rfl
    exact (writes_connective (word_escaped (by decide) (by decide)) rfl hroot hitems).weaken
  | next s argument =>
    apply Writes.of_expand rfl
    exact (writes_connective (word_escaped (by decide) (by decide)) rfl hroot hitems).weaken
  | implies s left right =>
    apply Writes.of_expand rfl
    exact (writes_connective (word_escaped (by decide) (by decide)) rfl hroot hitems).weaken
  | iff s left right =>
    apply Writes.of_expand rfl
    exact (writes_connective (word_escaped (by decide) (by decide)) rfl hroot hitems).weaken
  | rewrites s left right =>
    apply Writes.of_expand rfl
    exact (writes_connective (word_escaped (by decide) (by decide)) rfl hroot hitems).weaken
  | «exists» s v body =>
    have hbinder := forall₂_binder hroot.2 (hchildren body List.mem_cons_self)
    apply Writes.of_expand rfl
    exact (writes_connective (word_escaped (by decide) (by decide)) rfl hroot.1 hbinder).weaken
  | «forall» s v body =>
    have hbinder := forall₂_binder hroot.2 (hchildren body List.mem_cons_self)
    apply Writes.of_expand rfl
    exact (writes_connective (word_escaped (by decide) (by decide)) rfl hroot.1 hbinder).weaken
  | mu v body =>
    have hbinder := forall₂_binder hroot (hchildren body List.mem_cons_self)
    apply Writes.of_expand rfl
    exact (writes_fixpoint (word_escaped (by decide) (by decide)) rfl hbinder).weaken
  | nu v body =>
    have hbinder := forall₂_binder hroot (hchildren body List.mem_cons_self)
    apply Writes.of_expand rfl
    exact (writes_fixpoint (word_escaped (by decide) (by decide)) rfl hbinder).weaken
  | ceil operand result argument =>
    apply Writes.of_expand rfl
    exact (writes_predicate (word_escaped (by decide) (by decide)) hroot.1 hroot.2 hitems).weaken
  | floor operand result argument =>
    apply Writes.of_expand rfl
    exact (writes_predicate (word_escaped (by decide) (by decide)) hroot.1 hroot.2 hitems).weaken
  | equals operand result left right =>
    apply Writes.of_expand rfl
    exact (writes_predicate (word_escaped (by decide) (by decide)) hroot.1 hroot.2 hitems).weaken
  | «in» operand result left right =>
    apply Writes.of_expand rfl
    exact (writes_predicate (word_escaped (by decide) (by decide)) hroot.1 hroot.2 hitems).weaken
  | domainValue s value =>
    rw [← Pattern.lexemes_eq]
    exact (writes_domainValue hroot).weaken
  | associativeApplication side symbol arguments =>
    apply Writes.of_expand rfl
    cases side <;>
      exact (writes_associative hroot (word_escaped (by decide) (by decide)) rfl hitems).weaken
termination_by sizeOf p
decreasing_by exact Pattern.sizeOf_child hc

end Nodes

end SyntaxTask

namespace Doc

section Combinators

variable {doc : List Op} {lx : List Lexeme} {word : Bool}

theorem Writes.group (h : Writes doc lx word) : Writes (Doc.group doc) lx word := by
  rw [Doc.group]
  split
  · exact h
  · exact writes_grouped h

theorem Writes.nest {amount : UInt64} (h : Writes doc lx word) :
    Writes (Doc.nest amount doc) lx word := by
  rw [Doc.nest]
  split
  · exact h
  · constructor
    · refine .op (by simp) (by simp) (h.balanced.append ?_)
      exact .op (by simp) (by simp) .nil
    · intro after ls hafter hprints
      rw [List.cons_append, List.cons_append, List.append_assoc]
      refine prints_silent trivial ?_
      apply h.prints
      · exact fun hw => heads_silent trivial (hafter hw)
      · exact prints_silent trivial hprints

theorem EndsWord.nest {amount : UInt64} (h : EndsWord doc) : EndsWord (Doc.nest amount doc) := by
  rw [Doc.nest]
  split
  · exact h
  · intro after
    rw [List.cons_append, List.cons_append, List.append_assoc]
    exact heads_silent trivial (h _)

theorem writes_line : Writes Doc.line [] false := by
  constructor
  · exact .op (by simp) (by simp) .nil
  · intro after ls _ hprints
    exact prints_line (.inr rfl) hprints

theorem endsWord_line (after : List Op) : EndsWord (Doc.line ++ after) := by
  intro rest
  rintro out (_ | ⟨hline, hrest⟩)
  cases hline <;> rintro _ ⟨⟩ <;> rfl

/-- A line and what is printed after it. -/
theorem Writes.after_line (h : Writes doc lx word) : Writes (Doc.line ++ doc) lx word :=
  writes_line.append h (by simp)

theorem writes_join {documents : List Doc} {lxs : List (List Lexeme)} (hne : documents ≠ [])
    (h : List.Forall₂ (fun document lx => Writes document lx true) documents lxs) :
    Writes (join (Doc.concat [Doc.text [','], Doc.line]) documents) (separated lxs) true := by
  induction h with
  | nil => exact absurd rfl hne
  | @cons document lx documents lxs hdocument hdocuments ih =>
    cases hdocuments with
    | nil => exact hdocument
    | @cons document' lx' documents lxs hdocument' hdocuments =>
      show Writes (document ++ [Op.text [','], .line [' ']] ++ join _ (document' :: documents)) _ _
      rw [List.append_assoc]
      apply hdocument.append
      · exact writes_separator.append (ih (by simp)) (by simp)
      · exact fun _ => endsWord_text rfl

theorem delimited_eq {indent : UInt64} {opening closing : Char} {documents : List Doc}
    (hne : documents.isEmpty = false) :
    delimited indent opening closing documents
      = enclosed indent opening closing (join (Doc.concat [Doc.text [','], Doc.line]) documents) := by
  simp [delimited, hne, enclosed, Doc.group, Doc.nest, Doc.concat, Doc.text, Doc.lineBreak]

theorem writes_delimited {indent : UInt64} {opening closing : Char} {first last : TokenKind}
    (hmarks : Delimiters opening closing first last) {documents : List Doc}
    {lxs : List (List Lexeme)}
    (h : List.Forall₂ (fun document lx => Writes document lx true) documents lxs) :
    Writes (delimited indent opening closing documents)
      ((first, [opening]) :: (separated lxs ++ [(last, [closing])])) false := by
  cases hdocuments : documents.isEmpty with
  | true =>
    rw [delimited, if_pos hdocuments]
    cases h with
    | nil => exact writes_empty hmarks
    | cons => cases hdocuments
  | false =>
    rw [delimited_eq hdocuments]
    exact writes_enclosed hmarks (writes_join (by simpa using hdocuments) h)

theorem endsWord_delimited {indent : UInt64} {opening closing : Char} {first last : TokenKind}
    (hmarks : Delimiters opening closing first last) (documents : List Doc) :
    EndsWord (delimited indent opening closing documents) := by
  cases hdocuments : documents.isEmpty with
  | true =>
    rw [delimited, if_pos hdocuments]
    exact endsWord_text hmarks.first_stop
  | false =>
    rw [delimited_eq hdocuments]
    exact endsWord_enclosed hmarks

theorem EndsWord.append (h : EndsWord doc) (after : List Op) : EndsWord (doc ++ after) := by
  intro rest
  rw [List.append_assoc]
  exact h _

theorem forall₂_map {α : Type} {as : List α} {document : α → Doc} {lexemes : α → List Lexeme}
    (h : ∀ a ∈ as, Writes (document a) (lexemes a) true) :
    List.Forall₂ (fun document lx => Writes document lx true) (as.map document)
      (as.map lexemes) := by
  induction as with
  | nil => exact .nil
  | cons a as ih =>
    rw [List.forall_mem_cons] at h
    exact .cons h.1 (ih h.2)

end Combinators

end Doc

section Sentences

variable {indent : UInt64}

open Doc (Writes EndsWord)

theorem writes_attributes {a : Attributes} (h : a.WellFormed) :
    Writes (attributesDoc indent a) a.lexemes false :=
  Doc.writes_delimited delimiters_brackets
    (Doc.forall₂_map fun p hp => SyntaxTask.writes_pattern p (h p hp).1)

theorem writes_parameters {parameters : List String} (h : ∀ name ∈ parameters, IsName name) :
    Writes (parametersDoc indent parameters) (parameterLexemes parameters) false := by
  apply Doc.writes_delimited delimiters_braces
  apply Doc.forall₂_map
  exact fun name hname => Doc.writes_text fun _ _ hstop hrest => .word (h name hname) (hstop rfl) hrest

theorem writes_sortsDoc {sorts : List KoreSort} (h : ∀ s ∈ sorts, s.Named) :
    Writes (sortsDoc indent sorts) (sortsLexemes sorts) false :=
  Doc.writes_delimited delimiters_parentheses
    (Doc.forall₂_map fun s hs => SyntaxTask.writes_sort (h s hs))

theorem writes_symbolDoc {symbol : Symbol} (h : symbol.Named) :
    Writes (syntaxDoc indent (.symbol symbol)) symbol.lexemes false :=
  SyntaxTask.writes_symbol h

theorem writes_sortDoc {s : KoreSort} (h : s.Named) :
    Writes (syntaxDoc indent (.sort s)) s.lexemes true :=
  SyntaxTask.writes_sort h

theorem writes_patternDoc {p : Pattern} (h : p.Named) :
    Writes (syntaxDoc indent (.pattern p)) p.lexemes true :=
  SyntaxTask.writes_pattern p h

/-- The attributes of a sentence come after a line. -/
theorem writes_lastAttributes {a : Attributes} (h : a.WellFormed) :
    Writes (Doc.line ++ attributesDoc indent a) a.lexemes false :=
  (writes_attributes h).after_line

/-- A text that is a word and something that ends it. -/
theorem writes_ended {kind : TokenKind} {text : List Char} {c : Char} {value : List Char}
    {lx : List Lexeme} {word : Bool} (h : Word kind text) (hc : IsStop c)
    (hvalue : ∀ rest ls, (word = true → Stops rest) → Spelled rest ls →
      Spelled (c :: value ++ rest) (lx ++ ls)) :
    Writes [Op.text (text ++ c :: value)] ((kind, text) :: lx) word := by
  apply Doc.writes_text
  intro rest ls hstop hrest
  rw [List.append_assoc]
  apply Spelled.word h
  · rintro _ ⟨⟩
    exact hc
  · exact hvalue rest ls hstop hrest

/-- A keyword, a space and a name. -/
theorem writes_keyword_name {kind : TokenKind} {keyword : List Char} {name : String}
    (hkeyword : Word kind keyword) (hname : IsName name) :
    Writes [Op.text (keyword ++ ' ' :: name.toList)] [(kind, keyword), identifier name] true :=
  writes_ended hkeyword rfl fun _ _ hstop hrest => .space rfl (.word hname (hstop rfl) hrest)

/-- A keyword and a space. -/
theorem writes_keyword {kind : TokenKind} {keyword : List Char} (h : Word kind keyword) :
    Writes [Op.text (keyword ++ [' '])] [(kind, keyword)] false :=
  writes_ended h rfl fun _ _ _ hrest => .space rfl hrest

/-- A colon between two spaces. -/
theorem writes_colon : Writes [Op.text [' ', ':', ' ']] [colon] false :=
  Doc.writes_text fun _ _ _ hrest => .space rfl (.colon (by simp) (.space rfl hrest))

theorem writes_importSentence {name : String} {a : Attributes} (hname : IsName name)
    (ha : a.WellFormed) :
    Writes (sentenceDoc indent (.importModule name a)) (Sentence.importModule name a).lexemes false := by
  have hkeyword : Word .importKeyword "import".toList := word_plain (by decide) (by decide)
  have hdoc : sentenceDoc indent (.importModule name a) = Doc.group
      ([Op.text ("import".toList ++ ' ' :: name.toList)] ++ (Doc.line ++ attributesDoc indent a)) := by
    simp [sentenceDoc, Doc.concat, Doc.text]
  rw [hdoc]
  apply Writes.group
  apply (writes_keyword_name hkeyword hname).append (writes_lastAttributes ha)
  exact fun _ => Doc.endsWord_line _

theorem writes_sortDeclaration {hooked : Bool} {name : String} {parameters : List String}
    {a : Attributes} (hname : IsName name) (hparameters : ∀ p ∈ parameters, IsName p)
    (ha : a.WellFormed) :
    Writes (sentenceDoc indent (.sortDeclaration hooked name parameters a))
      (Sentence.sortDeclaration hooked name parameters a).lexemes false := by
  obtain ⟨kind, keyword, hkeyword, hdoc, hlexemes⟩ : ∃ kind keyword, Word kind keyword ∧
      sentenceDoc indent (.sortDeclaration hooked name parameters a) = Doc.group
        ([Op.text (keyword ++ ' ' :: name.toList)] ++
          (parametersDoc indent parameters ++ (Doc.line ++ attributesDoc indent a))) ∧
      (Sentence.sortDeclaration hooked name parameters a).lexemes
        = [(kind, keyword), identifier name] ++ (parameterLexemes parameters ++ a.lexemes) := by
    cases hooked with
    | false =>
      refine ⟨.sortKeyword, "sort".toList, word_plain (by decide) (by decide), ?_, ?_⟩
      · simp [sentenceDoc, Doc.concat, Doc.text]
      · simp [Sentence.lexemes, Kore.word]
    | true =>
      refine ⟨.hookedSortKeyword, "hooked-sort".toList, word_plain (by decide) (by decide), ?_, ?_⟩
      · simp [sentenceDoc, Doc.concat, Doc.text]
      · simp [Sentence.lexemes, Kore.word]
  rw [hdoc, hlexemes]
  apply Writes.group
  apply (writes_keyword_name hkeyword hname).append _
    fun _ => (Doc.endsWord_delimited delimiters_braces _).append _
  exact (writes_parameters hparameters).append (writes_lastAttributes ha) (by simp)

theorem writes_symbolDeclaration {hooked : Bool} {symbol : Symbol} {argumentSorts : List KoreSort}
    {resultSort : KoreSort} {a : Attributes} (hsymbol : symbol.Named)
    (hsorts : ∀ s ∈ argumentSorts, s.Named) (hresult : resultSort.Named) (ha : a.WellFormed) :
    Writes (sentenceDoc indent (.symbolDeclaration hooked symbol argumentSorts resultSort a))
      (Sentence.symbolDeclaration hooked symbol argumentSorts resultSort a).lexemes false := by
  obtain ⟨kind, keyword, hkeyword, hdoc, hlexemes⟩ : ∃ kind keyword, Word kind keyword ∧
      sentenceDoc indent (.symbolDeclaration hooked symbol argumentSorts resultSort a) = Doc.group
        ([Op.text (keyword ++ [' '])] ++ (syntaxDoc indent (.symbol symbol) ++
          (sortsDoc indent argumentSorts ++ ([Op.text [' ', ':', ' ']] ++
            (syntaxDoc indent (.sort resultSort) ++ (Doc.line ++ attributesDoc indent a)))))) ∧
      (Sentence.symbolDeclaration hooked symbol argumentSorts resultSort a).lexemes
        = [(kind, keyword)] ++ (symbol.lexemes ++ (sortsLexemes argumentSorts ++ ([colon] ++
          (resultSort.lexemes ++ a.lexemes)))) := by
    cases hooked with
    | false =>
      refine ⟨.symbolKeyword, "symbol".toList, word_plain (by decide) (by decide), ?_, ?_⟩
      · simp [sentenceDoc, Doc.concat, Doc.text]
      · simp [Sentence.lexemes, Kore.word]
    | true =>
      refine ⟨.hookedSymbolKeyword, "hooked-symbol".toList, word_plain (by decide) (by decide), ?_, ?_⟩
      · simp [sentenceDoc, Doc.concat, Doc.text]
      · simp [Sentence.lexemes, Kore.word]
  rw [hdoc, hlexemes]
  apply Writes.group
  refine (writes_keyword hkeyword).append ?_ (by simp)
  refine (writes_symbolDoc hsymbol).append ?_ (by simp)
  refine (writes_sortsDoc hsorts).append ?_ (by simp)
  refine writes_colon.append ?_ (by simp)
  apply (writes_sortDoc hresult).append (writes_lastAttributes ha)
  exact fun _ => Doc.endsWord_line _

theorem writes_aliasDeclaration {symbol applied : Symbol} {argumentSorts : List KoreSort}
    {resultSort : KoreSort} {vs : List Variable} {right : Pattern} {a : Attributes}
    (hsymbol : symbol.Named) (hsorts : ∀ s ∈ argumentSorts, s.Named) (hresult : resultSort.Named)
    (happlied : applied.Named) (hvs : ∀ v ∈ vs, v.Named) (hright : right.WellFormed)
    (ha : a.WellFormed) :
    Writes (sentenceDoc indent (.aliasDeclaration symbol argumentSorts resultSort
        (.application applied (vs.map .var)) right a))
      (Sentence.aliasDeclaration symbol argumentSorts resultSort
        (.application applied (vs.map .var)) right a).lexemes false := by
  have hleft : (Pattern.application applied (vs.map .var)).Named := by
    refine .node happlied ?_
    intro c hc
    obtain ⟨v, hv, rfl⟩ := List.mem_map.mp hc
    exact .node (hvs v hv) (by simp [Pattern.children])
  have halias : Word .aliasKeyword "alias".toList := word_plain (by decide) (by decide)
  have hwhere : Word .whereKeyword "where".toList := word_plain (by decide) (by decide)
  have hdoc : sentenceDoc indent (.aliasDeclaration symbol argumentSorts resultSort
        (.application applied (vs.map .var)) right a) = Doc.group
      ([Op.text ("alias".toList ++ [' '])] ++ (syntaxDoc indent (.symbol symbol) ++
        (sortsDoc indent argumentSorts ++ ([Op.text [' ', ':', ' ']] ++
          (syntaxDoc indent (.sort resultSort) ++ ([Op.text (' ' :: "where".toList)] ++
            Doc.nest indent (Doc.line ++
              (syntaxDoc indent (.pattern (.application applied (vs.map .var))) ++
                ([Op.text [' ', ':', '=']] ++ (Doc.line ++ (syntaxDoc indent (.pattern right) ++
                  (Doc.line ++ attributesDoc indent a)))))))))))) := by
    simp [sentenceDoc, Doc.concat, Doc.text]
  have hlexemes : (Sentence.aliasDeclaration symbol argumentSorts resultSort
        (.application applied (vs.map .var)) right a).lexemes
      = [(TokenKind.aliasKeyword, "alias".toList)] ++ (symbol.lexemes ++
        (sortsLexemes argumentSorts ++ ([colon] ++ (resultSort.lexemes ++ ([(TokenKind.whereKeyword, "where".toList)] ++
          ((Pattern.application applied (vs.map .var)).lexemes ++ ([walrus] ++
            (right.lexemes ++ a.lexemes)))))))) := by
    simp [Sentence.lexemes, Kore.word]
  have hkeyword : Writes [Op.text (' ' :: "where".toList)] [(.whereKeyword, "where".toList)] true :=
    Doc.writes_text fun _ _ hstop hrest => .space rfl (.word hwhere (hstop rfl) hrest)
  have hwalrus : Writes [Op.text [' ', ':', '=']] [walrus] false :=
    Doc.writes_text fun _ _ _ hrest => .space rfl (.walrus hrest)
  rw [hdoc, hlexemes]
  apply Writes.group
  refine (writes_keyword halias).append ?_ (by simp)
  refine (writes_symbolDoc hsymbol).append ?_ (by simp)
  refine (writes_sortsDoc hsorts).append ?_ (by simp)
  refine writes_colon.append ?_ (by simp)
  refine (writes_sortDoc hresult).append ?_ fun _ => Doc.endsWord_text rfl
  refine hkeyword.append ?_ fun _ => (Doc.endsWord_line _).nest
  apply Writes.nest
  apply Writes.after_line
  refine (writes_patternDoc hleft).append ?_ fun _ => Doc.endsWord_text rfl
  refine hwalrus.append ?_ (by simp)
  apply Writes.after_line
  apply (writes_patternDoc hright.1).append (writes_lastAttributes ha)
  exact fun _ => Doc.endsWord_line _

theorem writes_declarationPattern {kind : TokenKind} {keyword : String} {parameters : List String}
    {p : Pattern} {a : Attributes} (hkeyword : Word kind keyword.toList)
    (hparameters : ∀ name ∈ parameters, IsName name) (hp : p.WellFormed) (ha : a.WellFormed) :
    Writes (declarationPatternDoc indent keyword parameters p a)
      ([(kind, keyword.toList)] ++ (parameterLexemes parameters ++ (p.lexemes ++ a.lexemes)))
      false := by
  have hdoc : declarationPatternDoc indent keyword parameters p a = Doc.group
      ([Op.text keyword.toList] ++ (parametersDoc indent parameters ++ Doc.nest indent (Doc.line ++
        (syntaxDoc indent (.pattern p) ++ (Doc.line ++ attributesDoc indent a))))) := by
    simp [declarationPatternDoc, Doc.concat, Doc.text]
  have hword : Writes [Op.text keyword.toList] [(kind, keyword.toList)] true :=
    Doc.writes_text fun _ _ hstop hrest => .word hkeyword (hstop rfl) hrest
  rw [hdoc]
  apply Writes.group
  refine hword.append ?_ fun _ => (Doc.endsWord_delimited delimiters_braces _).append _
  refine (writes_parameters hparameters).append ?_ (by simp)
  apply Writes.nest
  apply Writes.after_line
  apply (writes_patternDoc hp.1).append (writes_lastAttributes ha)
  exact fun _ => Doc.endsWord_line _

theorem writes_sentence {s : Sentence} (h : s.WellFormed) :
    Writes (sentenceDoc indent s) s.lexemes false := by
  cases s with
  | importModule name a => exact writes_importSentence h.1 h.2
  | sortDeclaration hooked name parameters a => exact writes_sortDeclaration h.1 h.2.1 h.2.2
  | symbolDeclaration hooked symbol argumentSorts resultSort a =>
    exact writes_symbolDeclaration h.1 h.2.1 h.2.2.1 h.2.2.2
  | aliasDeclaration symbol argumentSorts resultSort left right a =>
    obtain ⟨hsymbol, hsorts, hresult, ⟨applied, vs, rfl, happlied, hvs⟩, hright, ha⟩ := h
    exact writes_aliasDeclaration hsymbol hsorts hresult happlied hvs hright ha
  | axiomSentence parameters p a =>
    have hlexemes : (Sentence.axiomSentence parameters p a).lexemes
        = [(TokenKind.axiomKeyword, "axiom".toList)] ++ (parameterLexemes parameters ++
          (p.lexemes ++ a.lexemes)) := by
      simp [Sentence.lexemes, Kore.word]
    rw [hlexemes]
    exact writes_declarationPattern (word_plain (by decide) (by decide)) h.1 h.2.1 h.2.2
  | claimSentence parameters p a =>
    have hlexemes : (Sentence.claimSentence parameters p a).lexemes
        = [(TokenKind.claimKeyword, "claim".toList)] ++ (parameterLexemes parameters ++
          (p.lexemes ++ a.lexemes)) := by
      simp [Sentence.lexemes, Kore.word]
    rw [hlexemes]
    exact writes_declarationPattern (word_plain (by decide) (by decide)) h.1 h.2.1 h.2.2

theorem writes_hardLine {doc : List Op} {lx : List Lexeme} {word : Bool} (h : Writes doc lx word) :
    Writes (Op.hardLine :: doc) lx word := by
  constructor
  · exact .op (by simp) (by simp) h.balanced
  · intro after ls hafter hprints
    exact prints_hardLine (h.prints hafter hprints)

theorem endsWord_hardLine (doc : List Op) : EndsWord (Op.hardLine :: doc) := by
  intro after
  rintro out (_ | ⟨⟨⟩, hrest⟩) _ ⟨⟩
  rfl

theorem writes_nil : Writes [] [] false := ⟨.nil, fun _ hprints => hprints⟩

/-- Sentences, or modules, each on a line of its own. -/
theorem writes_lines {α : Type} {as : List α} {document : α → Doc} {lexemes : α → List Lexeme}
    (h : ∀ a ∈ as, Writes (document a) (lexemes a) false) :
    Writes (as.flatMap fun a => Op.hardLine :: document a) (as.flatMap lexemes) false := by
  induction as with
  | nil => exact writes_nil
  | cons a as ih =>
    rw [List.forall_mem_cons] at h
    exact (writes_hardLine h.1).append (ih h.2) (by simp)

/-- The sentences of a module, nested when there are any. -/
theorem writes_body {sentences : List Sentence} (h : ∀ s ∈ sentences, s.WellFormed) :
    Writes (if sentences.isEmpty then [] else Op.nestStart indent ::
      (sentences.flatMap fun s => Op.hardLine :: sentenceDoc indent s) ++ [Op.nestEnd indent])
      (sentences.flatMap Sentence.lexemes) false := by
  have hlines : Writes (sentences.flatMap fun s => Op.hardLine :: sentenceDoc indent s)
      (sentences.flatMap Sentence.lexemes) false :=
    writes_lines fun s hs => writes_sentence (h s hs)
  cases sentences with
  | nil => exact writes_nil
  | cons s sentences => exact hlines.nest

theorem writes_module {m : Module} (h : m.WellFormed) :
    Writes (moduleOps indent m) m.lexemes false := by
  have hmodule : Word .moduleKeyword "module".toList := word_plain (by decide) (by decide)
  have hendmodule : Word .endModuleKeyword "endmodule".toList := word_plain (by decide) (by decide)
  have hops : moduleOps indent m
      = [Op.text ("module".toList ++ ' ' :: m.name.toList)] ++
        ((if m.sentences.isEmpty then [] else Op.nestStart indent ::
          (m.sentences.flatMap fun s => Op.hardLine :: sentenceDoc indent s) ++ [Op.nestEnd indent]) ++
        (Op.hardLine :: ([Op.text ("endmodule".toList ++ [' '])] ++
          attributesDoc indent m.attributes))) := by
    simp [moduleOps]
  have hlexemes : m.lexemes = [(TokenKind.moduleKeyword, "module".toList), identifier m.name] ++
      (m.sentences.flatMap Sentence.lexemes ++
        ([(TokenKind.endModuleKeyword, "endmodule".toList)] ++ m.attributes.lexemes)) := by
    simp [Module.lexemes, Kore.word]
  rw [hops, hlexemes]
  apply (writes_keyword_name hmodule h.1).append
  · apply (writes_body h.2.1).append _ (by simp)
    apply writes_hardLine
    exact (writes_keyword hendmodule).append (writes_attributes h.2.2) (by simp)
  · intro _
    cases m.sentences with
    | nil => exact endsWord_hardLine _
    | cons s sentences =>
      intro after
      exact heads_silent trivial (endsWord_hardLine _ after)

theorem writes_definition {d : Definition} (h : d.WellFormed) :
    Writes (definitionOps indent d) d.lexemes false :=
  (writes_attributes h.1).append (writes_lines fun m hm => writes_module (h.2.2 m hm)) (by simp)

/-- What is printed splits into the lexemes, whatever the style, width and indentation. -/
theorem lex_renderOps {doc : List Op} {lx : List Lexeme} {word : Bool} (h : Writes doc lx word)
    (options : PrintOptions) :
    ∃ text tokens, renderOps options doc = some text ∧ lex text = .ok tokens ∧
      tokens.map Token.lexeme = lx := by
  obtain ⟨text, hrender, hlayout⟩ :=
    render_of_balanced h.balanced options.style.renderMode options.width
  have hprints := h.prints (fun _ => heads_nil) prints_nil
  rw [List.append_nil, List.append_nil] at hprints
  obtain ⟨tokens, hlex, htokens⟩ := lexFrom_spelled (hprints text hlayout) 0
  exact ⟨text, tokens, hrender, hlex, htokens⟩

end Sentences

end KRust.Kore
