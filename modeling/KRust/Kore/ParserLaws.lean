import KRust.Kore.Grammar
import KRust.Kore.LiteralLaws

/-!
Parsing what the grammar spells: on the lexemes of a construct, whatever follows them, the
parser gives the construct back and leaves the rest.
-/

set_option linter.unusedSectionVars false

namespace KRust.Kore

open KRust.Lib

namespace Parser

section Tokens

variable {α β : Type} {inputLen : Nat} {ls ls' : List Lexeme}

/-- The parser `m` does on the lexemes `ls` what `m'` does on `ls'`. -/
abbrev Runs (m : Parser α) (ls : List Lexeme) (m' : Parser α) (ls' : List Lexeme) : Prop :=
  Reader.Steps Token.lexeme m ls m' ls'

theorem runs_expect {kind : TokenKind} {text : List Char} {f : Token → Parser β} {m' : Parser β}
    (h : ∀ t, t.lexeme = (kind, text) → Runs (f t) ls m' ls') :
    Runs (expect inputLen kind >>= f) ((kind, text) :: ls) m' ls' := by
  show Runs (consume kind >>= _ >>= f) _ _ _
  rw [bind_assoc]
  apply Reader.Steps.take
  · intro t ht
    have hkind : t.kind = kind := congrArg Prod.fst ht
    simp [hkind]
  · intro t ht
    exact h t ht

/-- A token that is only expected for its kind. -/
theorem runs_mark {l : Lexeme} {m m' : Parser β} (h : Runs m ls m' ls') :
    Runs (expect inputLen l.1 >>= fun _ => m) (l :: ls) m' ls' :=
  runs_expect fun _ _ => h

theorem runs_consume {l : Lexeme} {f : Option Token → Parser β} {m' : Parser β}
    (h : ∀ t, t.lexeme = l → Runs (f (some t)) ls m' ls') :
    Runs (consume l.1 >>= f) (l :: ls) m' ls' := by
  apply Reader.Steps.take
  · rintro t rfl
    simp [Token.lexeme]
  · exact h

theorem runs_leave {kind : TokenKind} {f : Option Token → Parser β} {m' : Parser β}
    (hkind : ∀ l ∈ ls.head?, l.1 ≠ kind) (h : Runs (f none) ls m' ls') :
    Runs (consume kind >>= f) ls m' ls' := by
  apply Reader.Steps.leave
  · intro t ht
    have := hkind t.lexeme ht.symm
    simpa [Token.lexeme] using this
  · exact h

theorem runs_peek {l : Lexeme} {f : Option Token → Parser β} {m' : Parser β}
    (h : ∀ t, t.lexeme = l → Runs (f (some t)) (l :: ls) m' ls') :
    Runs (peek >>= f) (l :: ls) m' ls' := by
  show Runs (Reader.ahead >>= _ >>= f) _ _ _
  rw [bind_assoc]
  apply Reader.Steps.ahead
  intro tokens htokens
  cases tokens with
  | nil => cases htokens
  | cons t tokens => exact h t (List.cons.inj htokens).1

/-- The offset of what comes next matters for errors only. -/
theorem runs_nextOffset {f : Nat → Parser β} {m' : Parser β}
    (h : ∀ offset, Runs (f offset) ls m' ls') : Runs (nextOffset inputLen >>= f) ls m' ls' := by
  show Runs (Reader.ahead >>= _ >>= _ >>= f) _ _ _
  rw [bind_assoc, bind_assoc]
  apply Reader.Steps.ahead
  intro tokens _
  exact h _

/-- A parser that gives its value hands it on. -/
theorem runs_bind {m : Parser α} {a : α} {f : α → Parser β} {m' : Parser β}
    {middle : List Lexeme} (hm : Runs m ls (pure a) middle) (hf : Runs (f a) middle m' ls') :
    Runs (m >>= f) ls m' ls' :=
  (hm.bind f).trans hf

/-- The lexemes `lx` spell the value that `parse` gives. -/
def Spells (parse : Parser α) (lx : List Lexeme) (a : α) (follow : List Lexeme → Prop) : Prop :=
  ∀ ls, follow ls → Runs parse (lx ++ ls) (pure a) ls

/-- What may follow a sort. -/
def Follows (ls : List Lexeme) : Prop := ∀ l ∈ ls.head?, l.1 ≠ .lBrace

theorem follows_cons {l : Lexeme} (h : l.1 ≠ .lBrace) (ls : List Lexeme) :
    Follows (l :: ls) := by
  rintro _ ⟨⟩
  exact h

/-- The items of a list do not start with a mark that ends one. -/
def Opens (lx : List Lexeme) : Prop :=
  ∃ l rest, lx = l :: rest ∧ l.1 ∉ [.rBrace, .rParen, .rBracket]

theorem runs_delimitedLoop {closing : Lexeme} {parse : Parser α}
    (hclosing : closing.1 ∈ [.rBrace, .rParen, .rBracket]) {lexemes : α → List Lexeme}
    (a : α) (as : List α) (hparse : ∀ x ∈ a :: as, Spells parse (lexemes x) x Follows)
    (done : List α) :
    Runs (Reader.loop (delimitedStep inputLen closing.1 parse)
        (delimitedStep_advances inputLen closing.1 parse) done)
      (separated ((a :: as).map lexemes) ++ closing :: ls) (pure (done ++ a :: as)) ls := by
  have hcloses : closing.1 ≠ .lBrace ∧ closing.1 ≠ .comma := by
    constructor <;> intro h <;> rw [h] at hclosing <;> revert hclosing <;> decide
  rw [List.forall_mem_cons] at hparse
  induction as generalizing a done with
  | nil =>
    rw [Reader.loop_eq, delimitedStep, bind_assoc]
    apply runs_bind (hparse.1 (closing :: ls) (follows_cons hcloses.1 ls))
    rw [bind_assoc]
    apply runs_leave
    · rintro _ ⟨⟩
      exact hcloses.2
    · rw [bind_assoc]
      apply runs_mark
      exact .refl _ _
  | cons b bs ih =>
    have happend : separated ((a :: b :: bs).map lexemes) ++ closing :: ls
        = lexemes a ++ comma :: (separated ((b :: bs).map lexemes) ++ closing :: ls) := by
      simp [separated]
    have hcomma : comma.1 ≠ .lBrace := by decide
    rw [happend, Reader.loop_eq, delimitedStep, bind_assoc]
    apply runs_bind (hparse.1 _ (follows_cons hcomma _))
    rw [bind_assoc]
    apply runs_consume
    intro t _
    have hrest := hparse.2
    rw [List.forall_mem_cons] at hrest
    have hih := ih b hrest (done ++ [a])
    rw [List.append_assoc] at hih
    exact hih

/-- A list between two marks is read item by item. -/
theorem runs_delimited (opening closing : Lexeme) {parse : Parser α}
    (hclosing : closing.1 ∈ [.rBrace, .rParen, .rBracket]) {lexemes : α → List Lexeme}
    (as : List α) (hparse : ∀ x ∈ as, Spells parse (lexemes x) x Follows ∧ Opens (lexemes x)) :
    Runs (delimited inputLen opening.1 closing.1 parse)
      (opening :: (separated (as.map lexemes) ++ [closing]) ++ ls) (pure as) ls := by
  rw [List.cons_append, List.append_assoc, List.singleton_append]
  apply runs_mark
  cases as with
  | nil =>
    apply runs_consume
    intro t _
    exact .refl _ _
  | cons a as =>
    apply runs_leave
    · obtain ⟨l, rest, hl, hopen⟩ := (hparse a List.mem_cons_self).2
      have hhead : (separated ((a :: as).map lexemes) ++ closing :: ls).head? = some l := by
        cases as <;> simp [separated, hl]
      rw [hhead]
      rintro _ ⟨⟩ heq
      rw [heq] at hopen
      exact hopen hclosing
    · exact runs_delimitedLoop hclosing a as (fun x hx => (hparse x hx).1) []

end Tokens

section Sorts

variable {inputLen : Nat} {ls : List Lexeme}

theorem name_of_lexeme {t : Token} {kind : TokenKind} {name : String}
    (h : t.lexeme = (kind, name.toList)) : t.name = name := by
  have htext : t.text = name.toList := congrArg Prod.snd h
  rw [Token.name, htext, String.ofList_toList]

theorem opens_sort (s : KoreSort) : Opens s.lexemes := by
  cases s with
  | var name => exact ⟨_, _, KoreSort.lexemes_var name, by simp [identifier]⟩
  | application name arguments =>
    exact ⟨_, _, KoreSort.lexemes_application name arguments, by simp [identifier]⟩

/-- A sort that was read leaves the loop in the state that holds it. -/
def SortRuns (inputLen : Nat) (s : KoreSort) : Prop :=
  ∀ stack ls, Follows ls →
    Runs (sortLoop inputLen (stack, none)) (s.lexemes ++ ls) (sortLoop inputLen (stack, some s)) ls

/-- The loop with a sort that was read goes on with the end of its turn. -/
theorem sortLoop_some (stack : List SortFrame) (s : KoreSort) :
    sortLoop inputLen (stack, some s)
      = reduceSort inputLen stack s >>= Sum.elim (sortLoop inputLen) pure :=
  Reader.loop_eq _ _ _

theorem sortLoop_none (stack : List SortFrame) :
    sortLoop inputLen (stack, none)
      = sortStep inputLen (stack, none) >>= Sum.elim (sortLoop inputLen) pure :=
  Reader.loop_eq _ _ _

theorem runs_sortArguments {name : String} {stack : List SortFrame} (a : KoreSort)
    (as : List KoreSort) (h : ∀ s ∈ a :: as, SortRuns inputLen s) (done : List KoreSort) :
    Runs (sortLoop inputLen (⟨name, done⟩ :: stack, none))
      (separated ((a :: as).map KoreSort.lexemes) ++ rBrace :: ls)
      (sortLoop inputLen (stack, some (.application name (done ++ a :: as)))) ls := by
  rw [List.forall_mem_cons] at h
  induction as generalizing a done with
  | nil =>
    apply (h.1 _ _ (follows_cons (by decide) _)).trans
    rw [sortLoop_some, reduceSort, bind_assoc]
    apply runs_leave
    · rintro _ ⟨⟩
      decide
    · rw [bind_assoc]
      apply runs_mark
      exact .refl _ _
  | cons b bs ih =>
    have happend : separated ((a :: b :: bs).map KoreSort.lexemes) ++ rBrace :: ls
        = a.lexemes ++ comma :: (separated ((b :: bs).map KoreSort.lexemes) ++ rBrace :: ls) := by
      simp [separated]
    have hcomma : comma.1 ≠ .lBrace := by decide
    rw [happend]
    apply (h.1 _ _ (follows_cons hcomma _)).trans
    rw [sortLoop_some, reduceSort, bind_assoc]
    apply runs_consume
    intro t _
    have hrest := h.2
    rw [List.forall_mem_cons] at hrest
    have hih := ih b hrest (done ++ [a])
    rw [List.append_assoc] at hih
    exact hih

theorem sortRuns (s : KoreSort) : SortRuns inputLen s := by
  intro stack ls hfollow
  cases s with
  | var name =>
    rw [KoreSort.lexemes_var, sortLoop_none, sortLoop_some, sortStep, bind_assoc]
    apply runs_expect
    intro t ht
    rw [name_of_lexeme ht, bind_assoc]
    apply runs_leave hfollow
    exact .refl _ _
  | application name arguments =>
    rw [KoreSort.lexemes_application, List.cons_append, braced_append, sortLoop_none, sortStep,
      bind_assoc]
    apply runs_expect
    intro t ht
    rw [name_of_lexeme ht, bind_assoc]
    apply runs_consume
    intro _ _
    dsimp only
    rw [bind_assoc]
    cases arguments with
    | nil =>
      apply runs_consume
      intro _ _
      rw [sortLoop_some]
      exact .refl _ _
    | cons a as =>
      apply runs_leave
      · obtain ⟨l, rest, hl, hopen⟩ := opens_sort a
        have hhead : (separated ((a :: as).map KoreSort.lexemes) ++ rBrace :: ls).head? = some l := by
          cases as <;> simp [separated, hl]
        rw [hhead]
        rintro _ ⟨⟩ heq
        rw [heq] at hopen
        exact hopen (by decide)
      · exact runs_sortArguments a as (fun s hs => sortRuns s) []
termination_by s
decreasing_by
  have := List.sizeOf_lt_of_mem hs
  simp only [KoreSort.application.sizeOf_spec]
  omega

theorem spells_sort (s : KoreSort) : Spells (sort inputLen) s.lexemes s Follows := by
  intro ls hfollow
  apply (sortRuns s [] ls hfollow).trans
  rw [sortLoop_some]
  exact .refl _ _

theorem runs_oneSort (s : KoreSort) :
    Runs (oneSort inputLen) (lBrace :: s.lexemes ++ rBrace :: ls) (pure s) ls := by
  apply runs_mark
  apply runs_bind (spells_sort s _ (follows_cons (by decide) _))
  apply runs_mark
  exact .refl _ _

theorem runs_twoSorts (s t : KoreSort) :
    Runs (twoSorts inputLen) (braced [s.lexemes, t.lexemes] ++ ls) (pure (s, t)) ls := by
  have happend : braced [s.lexemes, t.lexemes] ++ ls
      = lBrace :: (s.lexemes ++ comma :: (t.lexemes ++ rBrace :: ls)) := by
    simp [braced, separated]
  rw [happend]
  apply runs_mark
  apply runs_bind (spells_sort s _ (follows_cons (by decide) _))
  apply runs_mark
  apply runs_bind (spells_sort t _ (follows_cons (by decide) _))
  apply runs_mark
  exact .refl _ _

theorem runs_sorts (sorts : List KoreSort) :
    Runs (delimited inputLen .lBrace .rBrace (sort inputLen))
      (braced (sorts.map KoreSort.lexemes) ++ ls) (pure sorts) ls :=
  runs_delimited lBrace rBrace (by decide) sorts fun s _ => ⟨spells_sort s, opens_sort s⟩

theorem runs_argumentSorts (sorts : List KoreSort) :
    Runs (delimited inputLen .lParen .rParen (sort inputLen)) (sortsLexemes sorts ++ ls)
      (pure sorts) ls :=
  runs_delimited lParen rParen (by decide) sorts fun s _ => ⟨spells_sort s, opens_sort s⟩

theorem runs_symbol (symbol : Symbol) :
    Runs (Parser.symbol inputLen) (symbol.lexemes ++ ls) (pure symbol) ls := by
  rw [Parser.symbol, symbolName, bind_assoc]
  apply runs_expect
  intro t ht
  rw [name_of_lexeme ht]
  apply runs_bind (runs_sorts symbol.sortParameters)
  exact .refl _ _

theorem runs_variable (v : Variable) (hfollow : Follows ls) :
    Runs (readVariable inputLen v.kind) (v.lexemes ++ ls) (pure v) ls := by
  apply runs_expect
  intro t ht
  rw [name_of_lexeme ht]
  apply runs_mark
  apply runs_bind (spells_sort v.sort _ hfollow)
  exact .refl _ _

theorem runs_literal {value : KoreString} {encoding : LiteralEncoding}
    (hvalue : canonical value encoding = value) :
    Runs (stringValue inputLen encoding) (literal value encoding :: ls) (pure value) ls := by
  apply runs_expect
  intro t ht
  have htext : t.text = quoteAs value encoding := congrArg Prod.snd ht
  rw [htext, unquoteAs_quoteAs, hvalue]
  exact .refl _ _

end Sorts

section Patterns

variable {inputLen : Nat} {ls : List Lexeme}

/-- The loop after the start of a pattern. -/
def afterStart (inputLen : Nat) (stack : List Frame) : Started → Parser Pattern
  | .value p => patternLoop inputLen (stack, some p)
  | .frame frame => patternLoop inputLen (frame :: stack, none)

theorem patternLoop_some (stack : List Frame) (p : Pattern) :
    patternLoop inputLen (stack, some p)
      = reducePattern inputLen stack p >>= Sum.elim (patternLoop inputLen) pure :=
  Reader.loop_eq _ _ _

theorem patternLoop_none (stack : List Frame) :
    patternLoop inputLen (stack, none) = startPattern inputLen >>= afterStart inputLen stack := by
  rw [patternLoop, Reader.loop_eq, patternStep, bind_assoc]
  congr
  funext started
  cases started with
  | value p => exact (patternLoop_some stack p).symm
  | frame frame => rfl

/-- A pattern that was read leaves the loop in the state that holds it. -/
def PatternRuns (inputLen : Nat) (p : Pattern) : Prop :=
  ∀ stack ls, Follows ls →
    Runs (patternLoop inputLen (stack, none)) (p.lexemes ++ ls)
      (patternLoop inputLen (stack, some p)) ls

/-- The second mark that closes an associative application. -/
def outerClose : Bool → List Lexeme
  | true => [rParen]
  | false => []

theorem runs_closeOuter {β : Type} (outer : Bool) {f : Unit → Parser β} {m' : Parser β}
    {ls' : List Lexeme} (h : Runs (f ()) ls m' ls') :
    Runs (closeOuter inputLen outer >>= f) (outerClose outer ++ ls) m' ls' := by
  cases outer with
  | false => exact h
  | true =>
    show Runs (expect inputLen .rParen >>= _ >>= f) _ _ _
    rw [bind_assoc]
    apply runs_mark
    exact h

theorem runs_closeFrame {frame : Frame} {p : Pattern} (stack : List Frame)
    (hfinish : ∀ offset, frame.head.finish frame.arguments offset = .ok p) :
    Runs (closeFrame inputLen frame stack >>= Sum.elim (patternLoop inputLen) pure)
      (rParen :: (outerClose frame.outerClose ++ ls)) (patternLoop inputLen (stack, some p)) ls := by
  rw [closeFrame, bind_assoc]
  apply runs_mark
  rw [bind_assoc]
  apply runs_closeOuter
  rw [bind_assoc]
  apply runs_nextOffset
  intro offset
  rw [hfinish]
  exact .refl _ _

/-- The arguments that are left of a frame, its end, and what it gives. -/
theorem runs_arguments {head : Head} {arity : Arity} {outer : Bool} {p : Pattern}
    {stack : List Frame} (a : Pattern) (as : List Pattern)
    (h : ∀ q ∈ a :: as, PatternRuns inputLen q) (done : List Pattern)
    (harity : arity = .variadic ∨ arity = .exact (done ++ a :: as).length)
    (hfinish : ∀ offset, head.finish (done ++ a :: as) offset = .ok p) :
    Runs (patternLoop inputLen (⟨head, done, arity, outer⟩ :: stack, none))
      (separated ((a :: as).map Pattern.lexemes) ++ rParen :: (outerClose outer ++ ls))
      (patternLoop inputLen (stack, some p)) ls := by
  rw [List.forall_mem_cons] at h
  induction as generalizing a done with
  | nil =>
    apply (h.1 _ _ (follows_cons (by decide) _)).trans
    rw [patternLoop_some]
    rcases harity with rfl | rfl
    · rw [reducePattern, bind_assoc]
      apply runs_leave
      · rintro _ ⟨⟩
        decide
      · exact runs_closeFrame stack hfinish
    · rw [reducePattern, if_neg (Nat.lt_irrefl _)]
      exact runs_closeFrame stack hfinish
  | cons b bs ih =>
    have happend : separated ((a :: b :: bs).map Pattern.lexemes)
          ++ rParen :: (outerClose outer ++ ls)
        = a.lexemes ++ comma :: (separated ((b :: bs).map Pattern.lexemes)
          ++ rParen :: (outerClose outer ++ ls)) := by
      simp [separated]
    have hdone : done ++ a :: b :: bs = (done ++ [a]) ++ b :: bs := by simp
    have hcomma : comma.1 ≠ .lBrace := by decide
    have hrest := h.2
    rw [List.forall_mem_cons] at hrest
    rw [hdone] at harity hfinish
    have hih := ih b hrest (done ++ [a]) harity hfinish
    rw [happend]
    apply (h.1 _ _ (follows_cons hcomma _)).trans
    rw [patternLoop_some]
    rcases harity with rfl | rfl
    · rw [reducePattern, bind_assoc]
      apply runs_consume
      intro _ _
      exact hih
    · rw [reducePattern, if_pos (by simp), bind_assoc]
      apply runs_mark
      exact hih

theorem runs_fixed {head : Head} {arity : Nat} {p : Pattern} {stack : List Frame}
    (a : Pattern) (as : List Pattern) (h : ∀ q ∈ a :: as, PatternRuns inputLen q)
    (harity : arity = (a :: as).length) (hfinish : ∀ offset, head.finish (a :: as) offset = .ok p) :
    Runs (fixed inputLen head arity >>= afterStart inputLen stack)
      (lParen :: (separated ((a :: as).map Pattern.lexemes) ++ rParen :: ls))
      (patternLoop inputLen (stack, some p)) ls := by
  rw [fixed, bind_assoc]
  apply runs_mark
  exact runs_arguments a as h [] (.inr (by rw [harity]; rfl)) hfinish

theorem runs_variadic {head : Head} {outer : Bool} {p : Pattern} {stack : List Frame}
    (cs : List Pattern) (h : ∀ q ∈ cs, PatternRuns inputLen q ∧ Opens q.lexemes)
    (hfinish : ∀ offset, head.finish cs offset = .ok p) :
    Runs (variadic inputLen head outer >>= afterStart inputLen stack)
      (lParen :: (separated (cs.map Pattern.lexemes) ++ rParen :: (outerClose outer ++ ls)))
      (patternLoop inputLen (stack, some p)) ls := by
  rw [variadic, bind_assoc]
  apply runs_mark
  rw [bind_assoc]
  cases cs with
  | nil =>
    apply runs_consume
    intro _ _
    dsimp only
    rw [bind_assoc]
    apply runs_closeOuter
    rw [bind_assoc]
    apply runs_nextOffset
    intro offset
    rw [hfinish]
    exact .refl _ _
  | cons a as =>
    apply runs_leave
    · obtain ⟨l, rest, hl, hopen⟩ := (h a List.mem_cons_self).2
      have hhead : (separated ((a :: as).map Pattern.lexemes)
          ++ rParen :: (outerClose outer ++ ls)).head? = some l := by
        cases as <;> simp [separated, hl]
      rw [hhead]
      rintro _ ⟨⟩ heq
      rw [heq] at hopen
      exact hopen (by decide)
    · exact runs_arguments a as (fun q hq => (h q hq).1) [] (.inl rfl) hfinish

theorem connective_append (kind : TokenKind) (text : String) (s : KoreSort)
    (operands : List (List Lexeme)) (ls : List Lexeme) :
    connective kind text s operands ++ ls = word kind text :: (lBrace :: s.lexemes
      ++ rBrace :: (lParen :: (separated operands ++ rParen :: ls))) := by
  simp [connective, parenthesized]

/-- The start of a pattern is found by the token ahead. -/
theorem runs_startPattern {l : Lexeme} {f : Started → Parser Pattern} {m' : Parser Pattern}
    {ls' : List Lexeme}
    (h : ∀ t : Token, t.kind = l.1 → Runs (startToken inputLen t >>= f) (l :: ls) m' ls') :
    Runs (startPattern inputLen >>= f) (l :: ls) m' ls' := by
  rw [startPattern, bind_assoc]
  apply runs_peek
  intro t ht
  exact h t (congrArg Prod.fst ht)

/-- A variable is told from an application by the second token. -/
theorem runs_variableFollows {β : Type} {f : Bool → Parser β} {m' : Parser β} {ls' : List Lexeme}
    (h : Runs (f (ls[1]?.any fun l => l.1 = TokenKind.colon)) ls m' ls') :
    Runs (variableFollows >>= f) ls m' ls' := by
  rw [variableFollows, bind_assoc]
  apply Reader.Steps.ahead
  rintro tokens rfl
  have hcolon : tokens[1]?.any (fun t => t.kind = TokenKind.colon)
      = (tokens.map Token.lexeme)[1]?.any (fun l => l.1 = TokenKind.colon) := by
    rw [List.getElem?_map, Option.any_map]
    rfl
  rw [← hcolon] at h
  exact h

section Starts

variable {kind : TokenKind} {text : String} {operands : List (List Lexeme)}
  {f : Started → Parser Pattern} {m' : Parser Pattern} {ls' : List Lexeme}

/-- A connective with one sort is started by its keyword. -/
theorem runs_connective {start : KoreSort → Parser Started} {s : KoreSort}
    (htoken : ∀ t : Token, t.kind = kind → startToken inputLen t = sorted inputLen kind start)
    (h : Runs (start s >>= f) (lParen :: (separated operands ++ rParen :: ls)) m' ls') :
    Runs (startPattern inputLen >>= f) (connective kind text s operands ++ ls) m' ls' := by
  rw [connective_append]
  apply runs_startPattern
  intro t ht
  rw [htoken t ht, sorted, bind_assoc]
  apply runs_expect
  intro _ _
  rw [bind_assoc]
  exact runs_bind (runs_oneSort s) h

theorem runs_constant {constant : KoreSort → Pattern} {s : KoreSort}
    (htoken : ∀ t : Token, t.kind = kind →
      startToken inputLen t = startConstant inputLen kind constant) (stack : List Frame) :
    Runs (startPattern inputLen >>= afterStart inputLen stack) (connective kind text s [] ++ ls)
      (patternLoop inputLen (stack, some (constant s))) ls := by
  apply runs_connective htoken
  rw [bind_assoc]
  apply runs_mark
  rw [bind_assoc]
  apply runs_mark
  exact .refl _ _

theorem runs_binder {s : KoreSort} {v : Variable} {body p : Pattern} {stack : List Frame}
    (htoken : ∀ t : Token, t.kind = kind → startToken inputLen t = startQuantifier inputLen kind)
    (hbody : PatternRuns inputLen body) (hkind : v.kind = .element)
    (hfinish : ∀ offset, Head.finish (.quantifier kind s v) [body] offset = .ok p) :
    Runs (startPattern inputLen >>= afterStart inputLen stack)
      (connective kind text s [v.lexemes, body.lexemes] ++ ls)
      (patternLoop inputLen (stack, some p)) ls := by
  apply runs_connective htoken
  have happend : separated [v.lexemes, body.lexemes] ++ rParen :: ls
      = v.lexemes ++ comma :: (body.lexemes ++ rParen :: ls) := by
    simp [separated]
  rw [happend, bind_assoc]
  apply runs_mark
  rw [bind_assoc, ← hkind]
  apply runs_bind (runs_variable v (follows_cons (by decide) _))
  rw [bind_assoc]
  apply runs_mark
  exact runs_arguments body [] (by simpa using hbody) [] (.inr rfl) hfinish

theorem runs_fixpoint {v : Variable} {body p : Pattern} {stack : List Frame}
    (htoken : ∀ t : Token, t.kind = kind → startToken inputLen t = startFixpoint inputLen kind)
    (hbody : PatternRuns inputLen body) (hkind : v.kind = .set)
    (hfinish : ∀ offset, Head.finish (.fixpoint kind v) [body] offset = .ok p) :
    Runs (startPattern inputLen >>= afterStart inputLen stack)
      (fixpoint kind text [v.lexemes, body.lexemes] ++ ls)
      (patternLoop inputLen (stack, some p)) ls := by
  have happend : fixpoint kind text [v.lexemes, body.lexemes] ++ ls
      = word kind text :: lBrace :: rBrace :: lParen ::
        (v.lexemes ++ comma :: (body.lexemes ++ rParen :: ls)) := by
    simp [fixpoint, parenthesized, separated]
  rw [happend]
  apply runs_startPattern
  intro t ht
  rw [htoken t ht, startFixpoint, bind_assoc]
  apply runs_expect
  intro _ _
  rw [bind_assoc]
  apply runs_mark
  rw [bind_assoc]
  apply runs_mark
  rw [bind_assoc]
  apply runs_mark
  rw [bind_assoc, ← hkind]
  apply runs_bind (runs_variable v (follows_cons (by decide) _))
  rw [bind_assoc]
  apply runs_mark
  exact runs_arguments body [] (by simpa using hbody) [] (.inr rfl) hfinish

theorem runs_predicate {head : KoreSort → KoreSort → Head} {arity : Nat} {s t : KoreSort}
    {p : Pattern} {stack : List Frame} (a : Pattern) (as : List Pattern)
    (htoken : ∀ t : Token, t.kind = kind →
      startToken inputLen t = startPredicate inputLen kind head arity)
    (h : ∀ q ∈ a :: as, PatternRuns inputLen q) (harity : arity = (a :: as).length)
    (hfinish : ∀ offset, (head s t).finish (a :: as) offset = .ok p) :
    Runs (startPattern inputLen >>= afterStart inputLen stack)
      (predicate kind text s t ((a :: as).map Pattern.lexemes) ++ ls)
      (patternLoop inputLen (stack, some p)) ls := by
  rw [predicate, List.append_assoc, List.cons_append, parenthesized_append]
  apply runs_startPattern
  intro token htoken'
  rw [htoken token htoken', startPredicate, bind_assoc]
  apply runs_expect
  intro _ _
  rw [bind_assoc]
  apply runs_bind (runs_twoSorts s t)
  exact runs_fixed a as h harity hfinish

end Starts

theorem opens_pattern (p : Pattern) : Opens p.lexemes := by
  rw [Pattern.lexemes_eq]
  cases p with
  | var v =>
    refine ⟨_, _, rfl, ?_⟩
    cases v.kind <;> simp [variableToken]
  | associativeApplication side symbol arguments =>
    refine ⟨_, _, rfl, ?_⟩
    cases side <;> decide
  | _ => exact ⟨_, _, rfl, by simp [literal, identifier, word]⟩

theorem runs_variablePattern (v : Variable) (stack : List Frame) (hfollow : Follows ls) :
    Runs (startPattern inputLen >>= afterStart inputLen stack) (v.lexemes ++ ls)
      (patternLoop inputLen (stack, some (.var v))) ls := by
  have hread : Runs (readVariable inputLen v.kind) (v.lexemes ++ ls) (pure v) ls :=
    runs_variable v hfollow
  rw [Variable.lexemes_append] at hread ⊢
  apply runs_startPattern
  intro t ht
  rcases v with ⟨_ | _, name, s⟩
  · simp only [startToken, ht, variableToken]
    rw [bind_assoc]
    apply runs_variableFollows
    have hcolon : ((TokenKind.id, name.toList) :: colon :: (s.lexemes ++ ls))[1]?.any
        (fun l => l.1 = TokenKind.colon) = true := rfl
    rw [if_pos hcolon, bind_assoc]
    apply runs_bind hread
    exact .refl _ _
  · simp only [startToken, ht, variableToken]
    rw [bind_assoc]
    apply runs_bind hread
    exact .refl _ _

theorem runs_application {symbol : Symbol} {stack : List Frame} (arguments : List Pattern)
    (h : ∀ q ∈ arguments, PatternRuns inputLen q ∧ Opens q.lexemes) :
    Runs (startPattern inputLen >>= afterStart inputLen stack)
      (symbol.lexemes ++ parenthesized (arguments.map Pattern.lexemes) ++ ls)
      (patternLoop inputLen (stack, some (.application symbol arguments))) ls := by
  rw [List.append_assoc, parenthesized_append]
  apply runs_startPattern
  intro t ht
  simp only [startToken, ht, identifier]
  rw [bind_assoc]
  apply runs_variableFollows
  rw [if_neg (by simp [braced, lBrace]), bind_assoc]
  apply runs_bind (runs_symbol symbol)
  exact runs_variadic arguments h fun _ => rfl

theorem runs_associative {side : Associativity} {symbol : Symbol} {stack : List Frame}
    {arguments : List Pattern} (hne : arguments ≠ [])
    (h : ∀ q ∈ arguments, PatternRuns inputLen q ∧ Opens q.lexemes) :
    Runs (startPattern inputLen >>= afterStart inputLen stack)
      ([associativeWord side, lBrace, rBrace, lParen] ++ symbol.lexemes
        ++ parenthesized (arguments.map Pattern.lexemes) ++ [rParen] ++ ls)
      (patternLoop inputLen (stack, some (.associativeApplication side symbol arguments))) ls := by
  have happend : [associativeWord side, lBrace, rBrace, lParen] ++ symbol.lexemes
        ++ parenthesized (arguments.map Pattern.lexemes) ++ [rParen] ++ ls
      = associativeWord side :: lBrace :: rBrace :: lParen :: (symbol.lexemes
        ++ lParen :: (separated (arguments.map Pattern.lexemes)
          ++ rParen :: (outerClose true ++ ls))) := by
    simp [parenthesized, outerClose]
  have hword : (associativeWord side).1 = associativeToken side := by
    cases side <;> rfl
  have hfinish : ∀ offset, Head.finish (.associativeApplication side symbol) arguments offset
      = .ok (.associativeApplication side symbol arguments) := by
    intro offset
    rw [Head.finish, if_neg (by simpa using hne)]
  rw [happend]
  apply runs_startPattern
  intro t ht
  have htoken : startToken inputLen t = associative inputLen side := by
    cases side <;> simp only [startToken, ht] <;> rfl
  rw [htoken, associative, bind_assoc, ← hword]
  apply runs_mark
  rw [bind_assoc]
  apply runs_mark
  rw [bind_assoc]
  apply runs_mark
  rw [bind_assoc]
  apply runs_mark
  rw [bind_assoc]
  apply runs_leave
  · rintro _ ⟨⟩
    simp [identifier]
  · rw [bind_assoc]
    apply runs_bind (runs_symbol symbol)
    exact runs_variadic arguments h hfinish

/-- Every pattern with canonical literals and well-kinded binders is read from its
lexemes, one node after the other. -/
theorem patternRuns (p : Pattern) (h : p.Formed) : PatternRuns inputLen p := by
  have hchildren : ∀ c ∈ p.children, PatternRuns inputLen c :=
    fun c hc => patternRuns c (h.child hc)
  have hroot := h.root
  intro stack ls hfollow
  rw [patternLoop_none, Pattern.lexemes_eq]
  have hpairs : ∀ c ∈ p.children, PatternRuns inputLen c ∧ Opens c.lexemes :=
    fun c hc => ⟨hchildren c hc, opens_pattern c⟩
  cases p with
  | string value =>
    apply runs_startPattern
    intro t ht
    have hkind : t.kind = .string := ht
    simp only [startToken, hkind, stringPattern, bind_assoc]
    apply runs_bind (runs_literal hroot)
    exact .refl _ _
  | var v => exact runs_variablePattern v stack hfollow
  | application symbol arguments => exact runs_application arguments hpairs
  | top sort => exact runs_constant (fun t ht => by simp only [startToken, ht]) stack
  | bottom sort => exact runs_constant (fun t ht => by simp only [startToken, ht]) stack
  | and sort arguments =>
    apply runs_connective (fun t ht => by simp only [startToken, ht]; rfl)
    exact runs_variadic arguments hpairs fun _ => rfl
  | or sort arguments =>
    apply runs_connective (fun t ht => by simp only [startToken, ht]; rfl)
    exact runs_variadic arguments hpairs fun _ => rfl
  | not sort argument =>
    apply runs_connective (fun t ht => by simp only [startToken, ht]; rfl)
    exact runs_fixed argument [] hchildren rfl fun _ => rfl
  | next sort argument =>
    apply runs_connective (fun t ht => by simp only [startToken, ht]; rfl)
    exact runs_fixed argument [] hchildren rfl fun _ => rfl
  | implies sort left right =>
    apply runs_connective (fun t ht => by simp only [startToken, ht]; rfl)
    exact runs_fixed left [right] hchildren rfl fun _ => rfl
  | iff sort left right =>
    apply runs_connective (fun t ht => by simp only [startToken, ht]; rfl)
    exact runs_fixed left [right] hchildren rfl fun _ => rfl
  | rewrites sort left right =>
    apply runs_connective (fun t ht => by simp only [startToken, ht]; rfl)
    exact runs_fixed left [right] hchildren rfl fun _ => rfl
  | «exists» sort v body =>
    exact runs_binder (fun t ht => by simp only [startToken, ht])
      (hchildren body List.mem_cons_self) hroot fun _ => rfl
  | «forall» sort v body =>
    exact runs_binder (fun t ht => by simp only [startToken, ht])
      (hchildren body List.mem_cons_self) hroot fun _ => rfl
  | mu v body =>
    exact runs_fixpoint (fun t ht => by simp only [startToken, ht])
      (hchildren body List.mem_cons_self) hroot fun _ => rfl
  | nu v body =>
    exact runs_fixpoint (fun t ht => by simp only [startToken, ht])
      (hchildren body List.mem_cons_self) hroot fun _ => rfl
  | ceil operand result argument =>
    exact runs_predicate argument [] (fun t ht => by simp only [startToken, ht]; rfl) hchildren
      rfl fun _ => rfl
  | floor operand result argument =>
    exact runs_predicate argument [] (fun t ht => by simp only [startToken, ht]; rfl) hchildren
      rfl fun _ => rfl
  | equals operand result left right =>
    exact runs_predicate left [right] (fun t ht => by simp only [startToken, ht]; rfl) hchildren
      rfl fun _ => rfl
  | «in» operand result left right =>
    exact runs_predicate left [right] (fun t ht => by simp only [startToken, ht]; rfl) hchildren
      rfl fun _ => rfl
  | domainValue sort value =>
    show Runs _ (connective _ _ _ _ ++ ls) _ _
    rw [connective_append]
    apply runs_startPattern
    intro t ht
    have hkind : t.kind = .mlDv := ht
    simp only [startToken, hkind, domainValue, bind_assoc]
    apply runs_expect
    intro _ _
    apply runs_bind (runs_oneSort sort)
    apply runs_mark
    apply runs_bind (runs_literal hroot)
    apply runs_mark
    exact .refl _ _
  | associativeApplication side symbol arguments =>
    exact runs_associative hroot hpairs
termination_by sizeOf p
decreasing_by exact Pattern.sizeOf_child hc

end Patterns

section Sentences

variable {inputLen : Nat} {ls : List Lexeme}

theorem spells_pattern {p : Pattern} (h : p.Formed) :
    Spells (pattern inputLen) p.lexemes p Follows := by
  intro ls hfollow
  apply (patternRuns p h [] ls hfollow).trans
  rw [patternLoop_some]
  exact .refl _ _

theorem runs_attributes {a : Attributes} (h : a.WellFormed) :
    Runs (attributes inputLen) (a.lexemes ++ ls) (pure a) ls := by
  apply runs_bind (runs_delimited lBracket rBracket (by decide) a.patterns
    fun p hp => ⟨spells_pattern (h p hp).2, opens_pattern p⟩)
  exact .refl _ _

theorem follows_attributes (a : Attributes) (ls : List Lexeme) : Follows (a.lexemes ++ ls) :=
  follows_cons (by decide) _

theorem runs_sortVariables (parameters : List String) :
    Runs (sortVariables inputLen) (parameterLexemes parameters ++ ls) (pure parameters) ls := by
  apply runs_delimited lBrace rBrace (by decide) parameters
  intro name _
  refine ⟨?_, _, _, rfl, by simp [identifier]⟩
  intro ls _
  apply runs_expect
  intro t ht
  rw [name_of_lexeme ht]
  exact .refl _ _

/-- A keyword is expected for its kind. -/
theorem runs_word {β : Type} {kind : TokenKind} {text : String} {m m' : Parser β}
    {ls' : List Lexeme} (h : Runs m ls m' ls') :
    Runs (expect inputLen kind >>= fun _ => m) (word kind text :: ls) m' ls' :=
  runs_mark h

theorem runs_aliasLeftVariable (v : Variable) (hfollow : Follows ls) :
    Runs (aliasLeftVariable inputLen) (v.lexemes ++ ls) (pure (.var v)) ls := by
  have hread : Runs (readVariable inputLen v.kind) (v.lexemes ++ ls) (pure v) ls :=
    runs_variable v hfollow
  rw [Variable.lexemes_append] at hread ⊢
  apply Reader.Steps.ahead
  intro tokens htokens
  rcases tokens with _ | ⟨first, _ | ⟨second, rest⟩⟩
  · cases htokens
  · simp at htokens
  · simp only [List.map_cons, List.cons.injEq] at htokens
    have hfirst : first.kind = variableToken v.kind := congrArg Prod.fst htokens.1
    have hsecond : second.kind = .colon := congrArg Prod.fst htokens.2.1
    rcases v with ⟨_ | _, name, s⟩ <;>
      · simp only [aliasLeftKind, hfirst, variableToken, List.head?_cons, Option.any_some, hsecond, decide_true,
          if_true, pure_bind]
        apply runs_bind hread
        exact .refl _ _

theorem runs_importSentence {name : String} {a : Attributes} (ha : a.WellFormed) :
    Runs (importSentence inputLen) ((Sentence.importModule name a).lexemes ++ ls)
      (pure (.importModule name a)) ls := by
  have happend : (Sentence.importModule name a).lexemes ++ ls
      = word .importKeyword "import" :: identifier name :: (a.lexemes ++ ls) := by
    simp [Sentence.lexemes]
  rw [happend]
  apply runs_word
  apply runs_expect
  intro t ht
  rw [name_of_lexeme ht]
  apply runs_bind (runs_attributes ha)
  exact .refl _ _

theorem runs_sortDeclaration {hooked : Bool} {name : String} {parameters : List String}
    {a : Attributes} (ha : a.WellFormed) :
    Runs (sortDeclaration inputLen hooked)
      ((Sentence.sortDeclaration hooked name parameters a).lexemes ++ ls)
      (pure (.sortDeclaration hooked name parameters a)) ls := by
  have happend : (Sentence.sortDeclaration hooked name parameters a).lexemes ++ ls
      = (if hooked then word .hookedSortKeyword "hooked-sort" else word .sortKeyword "sort") ::
        identifier name :: (parameterLexemes parameters ++ (a.lexemes ++ ls)) := by
    simp [Sentence.lexemes]
  have hrest : Runs (do
      let t ← expect inputLen .id
      let parameters ← sortVariables inputLen
      return Sentence.sortDeclaration hooked t.name parameters (← attributes inputLen))
      (identifier name :: (parameterLexemes parameters ++ (a.lexemes ++ ls)))
      (pure (.sortDeclaration hooked name parameters a)) ls := by
    apply runs_expect
    intro t ht
    rw [name_of_lexeme ht]
    apply runs_bind (runs_sortVariables parameters)
    apply runs_bind (runs_attributes ha)
    exact .refl _ _
  rw [happend, sortDeclaration]
  cases hooked <;> exact runs_word hrest

theorem runs_symbolDeclaration {hooked : Bool} {symbol : Symbol} {argumentSorts : List KoreSort}
    {resultSort : KoreSort} {a : Attributes} (ha : a.WellFormed) :
    Runs (symbolDeclaration inputLen hooked)
      ((Sentence.symbolDeclaration hooked symbol argumentSorts resultSort a).lexemes ++ ls)
      (pure (.symbolDeclaration hooked symbol argumentSorts resultSort a)) ls := by
  have happend : (Sentence.symbolDeclaration hooked symbol argumentSorts resultSort a).lexemes ++ ls
      = (if hooked then word .hookedSymbolKeyword "hooked-symbol"
          else word .symbolKeyword "symbol") ::
        (symbol.lexemes ++ (sortsLexemes argumentSorts ++ colon ::
          (resultSort.lexemes ++ (a.lexemes ++ ls)))) := by
    simp [Sentence.lexemes]
  have hrest : Runs (do
      let symbol ← Parser.symbol inputLen
      let argumentSorts ← delimited inputLen .lParen .rParen (sort inputLen)
      let _ ← expect inputLen .colon
      let resultSort ← sort inputLen
      return Sentence.symbolDeclaration hooked symbol argumentSorts resultSort
        (← attributes inputLen))
      (symbol.lexemes ++ (sortsLexemes argumentSorts ++ colon ::
        (resultSort.lexemes ++ (a.lexemes ++ ls))))
      (pure (.symbolDeclaration hooked symbol argumentSorts resultSort a)) ls := by
    apply runs_bind (runs_symbol symbol)
    apply runs_bind (runs_argumentSorts argumentSorts)
    apply runs_mark
    apply runs_bind (spells_sort resultSort _ (follows_attributes a ls))
    apply runs_bind (runs_attributes ha)
    exact .refl _ _
  rw [happend, symbolDeclaration]
  cases hooked <;> exact runs_word hrest

theorem runs_aliasDeclaration {symbol applied : Symbol} {argumentSorts : List KoreSort}
    {resultSort : KoreSort} {vs : List Variable} {right : Pattern} {a : Attributes}
    (hright : right.WellFormed) (ha : a.WellFormed) :
    Runs (aliasDeclaration inputLen)
      ((Sentence.aliasDeclaration symbol argumentSorts resultSort
        (.application applied (vs.map .var)) right a).lexemes ++ ls)
      (pure (.aliasDeclaration symbol argumentSorts resultSort
        (.application applied (vs.map .var)) right a)) ls := by
  have hleft : (Pattern.application applied (vs.map .var)).lexemes
      = applied.lexemes ++ parenthesized ((vs.map Pattern.var).map Pattern.lexemes) :=
    Pattern.lexemes_eq _
  have happend : (Sentence.aliasDeclaration symbol argumentSorts resultSort
        (.application applied (vs.map .var)) right a).lexemes ++ ls
      = word .aliasKeyword "alias" :: (symbol.lexemes ++ (sortsLexemes argumentSorts ++ colon ::
        (resultSort.lexemes ++ word .whereKeyword "where" :: (applied.lexemes ++
          (parenthesized ((vs.map Pattern.var).map Pattern.lexemes) ++ walrus ::
            (right.lexemes ++ (a.lexemes ++ ls))))))) := by
    simp [Sentence.lexemes, hleft]
  have hvariables : ∀ p ∈ vs.map Pattern.var,
      Spells (aliasLeftVariable inputLen) p.lexemes p Follows ∧ Opens p.lexemes := by
    intro p hp
    obtain ⟨v, -, rfl⟩ := List.mem_map.mp hp
    refine ⟨?_, opens_pattern _⟩
    intro ls hfollow
    rw [Pattern.lexemes_eq]
    exact runs_aliasLeftVariable v hfollow
  rw [happend]
  apply runs_word
  apply runs_bind (runs_symbol symbol)
  apply runs_bind (runs_argumentSorts argumentSorts)
  apply runs_mark
  apply runs_bind (spells_sort resultSort _ (follows_cons (by decide) _))
  apply runs_word
  apply runs_bind (runs_symbol applied)
  apply runs_bind (runs_delimited lParen rParen (by decide) (vs.map Pattern.var) hvariables)
  apply runs_mark
  apply runs_bind (spells_pattern hright.2 _ (follows_attributes a ls))
  apply runs_bind (runs_attributes ha)
  exact .refl _ _

theorem runs_axiomSentence {claim : Bool} {parameters : List String} {p : Pattern}
    {a : Attributes} (hp : p.WellFormed) (ha : a.WellFormed) :
    Runs (axiomSentence inputLen claim)
      ((if claim then word .claimKeyword "claim" else word .axiomKeyword "axiom") ::
        (parameterLexemes parameters ++ (p.lexemes ++ (a.lexemes ++ ls))))
      (pure (if claim then .claimSentence parameters p a else .axiomSentence parameters p a)) ls := by
  have hrest : Runs (do
      let parameters ← sortVariables inputLen
      let p ← pattern inputLen
      let a ← attributes inputLen
      return if claim then Sentence.claimSentence parameters p a
        else Sentence.axiomSentence parameters p a)
      (parameterLexemes parameters ++ (p.lexemes ++ (a.lexemes ++ ls)))
      (pure (if claim then .claimSentence parameters p a else .axiomSentence parameters p a)) ls := by
    apply runs_bind (runs_sortVariables parameters)
    apply runs_bind (spells_pattern hp.2 _ (follows_attributes a ls))
    apply runs_bind (runs_attributes ha)
    exact .refl _ _
  rw [axiomSentence]
  cases claim <;> exact runs_word hrest

/-- A sentence is found by its keyword. -/
theorem runs_keyword {l : Lexeme} {m m' : Parser Sentence} {ls' : List Lexeme}
    (hkeyword : ∀ t : Token, t.kind = l.1 → sentenceToken inputLen t = m)
    (h : Runs m (l :: ls) m' ls') : Runs (sentence inputLen) (l :: ls) m' ls' := by
  apply runs_peek
  intro t ht
  dsimp only
  rw [hkeyword t (congrArg Prod.fst ht)]
  exact h

theorem runs_sentence {s : Sentence} (h : s.WellFormed) :
    Runs (sentence inputLen) (s.lexemes ++ ls) (pure s) ls := by
  cases s with
  | importModule name a =>
    apply runs_keyword (fun t ht => by simp only [sentenceToken, ht]; rfl)
    exact runs_importSentence h.2
  | sortDeclaration hooked name parameters a =>
    have hrun : Runs (sortDeclaration inputLen hooked)
        ((Sentence.sortDeclaration hooked name parameters a).lexemes ++ ls)
        (pure (.sortDeclaration hooked name parameters a)) ls := runs_sortDeclaration h.2.2
    cases hooked <;>
      exact runs_keyword (fun t ht => by simp only [sentenceToken, ht]; rfl) hrun
  | symbolDeclaration hooked symbol argumentSorts resultSort a =>
    have hrun : Runs (symbolDeclaration inputLen hooked)
        ((Sentence.symbolDeclaration hooked symbol argumentSorts resultSort a).lexemes ++ ls)
        (pure (.symbolDeclaration hooked symbol argumentSorts resultSort a)) ls :=
      runs_symbolDeclaration h.2.2.2
    cases hooked <;>
      exact runs_keyword (fun t ht => by simp only [sentenceToken, ht]; rfl) hrun
  | aliasDeclaration symbol argumentSorts resultSort left right a =>
    obtain ⟨-, -, -, ⟨applied, vs, rfl, -, -⟩, hright, hattributes⟩ := h
    apply runs_keyword (fun t ht => by simp only [sentenceToken, ht]; rfl)
    exact runs_aliasDeclaration hright hattributes
  | axiomSentence parameters p a =>
    have happend : (Sentence.axiomSentence parameters p a).lexemes ++ ls
        = word .axiomKeyword "axiom" :: (parameterLexemes parameters ++
          (p.lexemes ++ (a.lexemes ++ ls))) := by
      simp [Sentence.lexemes]
    rw [happend]
    apply runs_keyword (fun t ht => by simp only [sentenceToken, ht]; rfl)
    exact @runs_axiomSentence inputLen ls false parameters p a h.2.1 h.2.2
  | claimSentence parameters p a =>
    have happend : (Sentence.claimSentence parameters p a).lexemes ++ ls
        = word .claimKeyword "claim" :: (parameterLexemes parameters ++
          (p.lexemes ++ (a.lexemes ++ ls))) := by
      simp [Sentence.lexemes]
    rw [happend]
    apply runs_keyword (fun t ht => by simp only [sentenceToken, ht]; rfl)
    exact @runs_axiomSentence inputLen ls true parameters p a h.2.1 h.2.2

/-- The sentences of a module end at its end mark. -/
theorem runs_sentences (sentences : List Sentence) (h : ∀ s ∈ sentences, s.WellFormed)
    (done : List Sentence) :
    Runs (Reader.loop (sentencesStep inputLen) (sentencesStep_advances inputLen) done)
      (sentences.flatMap Sentence.lexemes ++ word .endModuleKeyword "endmodule" :: ls)
      (pure (done ++ sentences)) (word .endModuleKeyword "endmodule" :: ls) := by
  induction sentences generalizing done with
  | nil =>
    rw [Reader.loop_eq, sentencesStep, bind_assoc, List.append_nil]
    apply runs_peek
    intro t ht
    have hkind : t.kind = .endModuleKeyword := congrArg Prod.fst ht
    dsimp only
    rw [if_pos hkind]
    exact .refl _ _
  | cons s sentences ih =>
    rw [List.forall_mem_cons] at h
    obtain ⟨l, rest, hl, hkeyword⟩ : ∃ l rest, s.lexemes = l :: rest ∧ l.1 ≠ .endModuleKeyword := by
      cases s with
      | sortDeclaration hooked =>
        refine ⟨_, _, rfl, ?_⟩
        cases hooked <;> decide
      | symbolDeclaration hooked =>
        refine ⟨_, _, rfl, ?_⟩
        cases hooked <;> decide
      | _ => exact ⟨_, _, rfl, by decide⟩
    have hread : Runs (sentence inputLen)
        (s.lexemes ++ (sentences.flatMap Sentence.lexemes ++ word .endModuleKeyword "endmodule" :: ls))
        (pure s) _ := runs_sentence h.1
    rw [List.flatMap_cons, List.append_assoc, Reader.loop_eq, sentencesStep, bind_assoc]
    rw [hl, List.cons_append] at hread ⊢
    apply runs_peek
    intro t ht
    dsimp only
    rw [if_neg (fun hend => hkeyword (by rw [← ht]; exact hend)), bind_assoc]
    apply runs_bind hread
    have hih := ih h.2 (done ++ [s])
    rw [List.append_assoc] at hih
    exact hih

theorem runs_module {m : Module} (h : m.WellFormed) :
    Runs (module inputLen) (m.lexemes ++ ls) (pure m) ls := by
  have happend : m.lexemes ++ ls = word .moduleKeyword "module" :: identifier m.name ::
      (m.sentences.flatMap Sentence.lexemes ++ word .endModuleKeyword "endmodule" ::
        (m.attributes.lexemes ++ ls)) := by
    simp [Module.lexemes]
  rw [happend]
  apply runs_word
  apply runs_expect
  intro t ht
  rw [name_of_lexeme ht]
  apply runs_bind (runs_sentences m.sentences h.2.1 [])
  apply runs_word
  apply runs_bind (runs_attributes h.2.2)
  exact .refl _ _

theorem runs_modules (modules : List Module) (h : ∀ m ∈ modules, m.WellFormed)
    (done : List Module) :
    Runs (Reader.loop (modulesStep inputLen) (modulesStep_advances inputLen) done)
      (modules.flatMap Module.lexemes) (pure (done ++ modules)) [] := by
  induction modules generalizing done with
  | nil =>
    rw [Reader.loop_eq, modulesStep, bind_assoc, List.append_nil, peek, bind_assoc]
    apply Reader.Steps.ahead
    intro tokens htokens
    rw [List.map_eq_nil_iff.mp htokens]
    exact .refl _ _
  | cons m modules ih =>
    rw [List.forall_mem_cons] at h
    have hread : Runs (module inputLen) (m.lexemes ++ modules.flatMap Module.lexemes) (pure m) _ :=
      runs_module h.1
    rw [List.flatMap_cons, Reader.loop_eq, modulesStep, bind_assoc]
    apply runs_peek
    intro t ht
    dsimp only
    rw [bind_assoc]
    apply runs_bind hread
    have hih := ih h.2 (done ++ [m])
    rw [List.append_assoc] at hih
    exact hih

theorem runs_definition {d : Definition} (h : d.WellFormed) :
    Runs (definition inputLen) d.lexemes (pure d) [] := by
  rcases d with ⟨a, _ | ⟨m, modules⟩⟩
  · exact absurd rfl h.2.1
  · have hmodules := h.2.2
    rw [List.forall_mem_cons] at hmodules
    rw [Definition.lexemes, List.flatMap_cons]
    apply runs_bind (runs_attributes h.1)
    apply runs_bind (runs_module hmodules.1)
    apply runs_bind (runs_modules modules hmodules.2 [m])
    exact .refl _ _

/-- A parser that gives its value on all lexemes of a text accepts the text. -/
theorem parseText_of_runs {α : Type} {parse : Nat → Parser α} {a : α} {input : List Char}
    {tokens : List Token} (hlex : lex input = .ok tokens)
    (h : ∀ inputLen, Runs (parse inputLen) (tokens.map Token.lexeme) (pure a) []) :
    parseText parse input = .ok a := by
  obtain ⟨rest, hrest, hrun⟩ := h (byteLength input) tokens rfl
  rw [List.map_eq_nil_iff.mp hrest] at hrun
  rw [parseText, hlex]
  dsimp only
  rw [finish, hrun]
  rfl

end Sentences

end Parser

end KRust.Kore
