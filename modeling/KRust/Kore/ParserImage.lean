import KRust.Kore.ParserLaws
import Mathlib.Data.List.TakeWhile

/-!
What the parser accepts: the names of an accepted text are words of their class, its
literals are canonical, and so every tree the parser gives is well formed.
-/

set_option linter.unusedSectionVars false

namespace KRust.Kore

open KRust.Lib

section Literals

theorem encoded_push {cs : List Char} {c : Char} {offset : Nat} {result bytes : List UInt8}
    (hresult : result = Utf8.encode cs) (h : pushCodePoint .utf8 c offset = .ok bytes) :
    ∃ text, result ++ bytes = Utf8.encode text := by
  cases h
  exact ⟨cs ++ [c], by rw [hresult, Utf8.encode_append]; simp⟩

/-- A payload that is read as UTF-8 is the encoding of a text. -/
theorem unquoteFrom_encoded {body : List Char} {offset : Nat} {result : List UInt8}
    {value : KoreString} (hresult : ∃ cs, result = Utf8.encode cs)
    (h : unquoteFrom .utf8 body offset result = .ok value) : ∃ text, value = Utf8.encode text := by
  fun_induction unquoteFrom .utf8 body offset result with
  | case1 offset result =>
    cases h
    exact hresult
  | case4 | case7 | case11 =>
    rename_i hbytes ih
    obtain ⟨cs, hcs⟩ := hresult
    exact ih (encoded_push hcs hbytes) h
  | _ => cases h

/-- What a literal is read as holds its own code points. -/
theorem canonical_of_unquoteAs {input : List Char} {encoding : LiteralEncoding}
    {value : KoreString} (h : unquoteAs input encoding = .ok value) :
    canonical value encoding = value := by
  cases encoding with
  | bytes => rfl
  | utf8 =>
    unfold unquoteAs at h
    split at h
    · cases h
    · split at h
      · cases h
      · obtain ⟨text, rfl⟩ := unquoteFrom_encoded ⟨[], rfl⟩ h
        rw [canonical, Utf8.decode_encode]
        rfl

end Literals

section Tokens

/-- A token that names something is a word of its class. -/
def Token.Valid (t : Token) : Prop := t.kind ∈ [.id, .setVarId] → Word t.kind t.text

theorem valid_of_kind {start now : Lexer} {kind : TokenKind} (h : kind ∉ [.id, .setVarId]) :
    (start.token now kind).Valid :=
  fun hkind => absurd hkind h

/-- The word that is read on from a letter. -/
theorem isIdentifier_bumpWhile {c : Char} {rest : List Char} (hc : c.isAlpha = true) :
    IsIdentifier (c :: rest.takeWhile isIdChar) :=
  ⟨c, _, rfl, hc, fun _ hd => List.mem_takeWhile_imp hd⟩

theorem textTo_bumpWhile (before rest : List Char) (test : Char → Bool) (offset offset' : Nat) :
    (⟨before ++ rest, offset⟩ : Lexer).textTo ((⟨rest, offset'⟩ : Lexer).bumpWhile test)
      = before ++ rest.takeWhile test := by
  have hsplit : before ++ rest = before ++ rest.takeWhile test ++ rest.dropWhile test := by
    rw [List.append_assoc, List.takeWhile_append_dropWhile]
  rw [hsplit]
  exact Lexer.textTo_append _ _ _ _

theorem valid_scanPrefixedId (mark : List Char) {rest : List Char} {offset offset' : Nat}
    {classify : List Char → TokenKind} {t : Token} {now : Lexer}
    (hword : ∀ text, IsIdentifier text → Word (classify (mark ++ text)) (mark ++ text))
    (h : (⟨mark ++ rest, offset⟩ : Lexer).scanPrefixedId ⟨rest, offset'⟩ classify
      = .ok (some (t, now))) : t.Valid := by
  unfold Lexer.scanPrefixedId at h
  split at h
  · rename_i hletter
    simp only [Lexer.emit, Except.ok.injEq, Option.some.injEq, Prod.mk.injEq] at h
    obtain ⟨rfl, -⟩ := h
    cases rest with
    | nil => cases hletter
    | cons c rest =>
      have hc : c.isAlpha = true := by simpa using hletter
      have htake : (c :: rest).takeWhile isIdChar = c :: rest.takeWhile isIdChar := by
        rw [List.takeWhile_cons, if_pos]
        simp [isIdChar, Char.isAlphanum, hc]
      intro _
      simp only [Lexer.token, textTo_bumpWhile, htake]
      exact hword _ (isIdentifier_bumpWhile hc)
  · cases h

theorem punctuation_kind {c : Char} {kind : TokenKind} (h : punctuation c = some kind) :
    kind ∉ [.id, .setVarId] := by
  unfold punctuation at h
  split at h <;> cases h <;> decide

theorem valid_scanToken {start now : Lexer} {t : Token}
    (h : start.scanToken = .ok (some (t, now))) : t.Valid := by
  rcases start with ⟨remaining, offset⟩
  unfold Lexer.scanToken at h
  split at h
  case h_1 => cases h
  case h_2 | h_3 =>
    simp only [Lexer.emit, Except.ok.injEq, Option.some.injEq, Prod.mk.injEq] at h
    rw [← h.1]
    exact valid_of_kind (by decide)
  case h_4 =>
    split at h
    · cases h
    · simp only [Lexer.emit, Except.ok.injEq, Option.some.injEq, Prod.mk.injEq] at h
      rw [← h.1]
      exact valid_of_kind (by decide)
  case h_5 rest heq =>
    cases heq
    exact valid_scanPrefixedId ['\\', '@'] (fun _ hid => .escapedSetVariable hid) h
  case h_6 rest _ heq =>
    cases heq
    exact valid_scanPrefixedId ['\\'] (fun _ hid => .escaped hid) h
  case h_7 rest heq =>
    cases heq
    exact valid_scanPrefixedId ['@'] (fun _ hid => .setVariable hid) h
  case h_8 c rest _ _ _ _ _ _ heq =>
    cases heq
    split at h
    · rename_i kind hkind
      simp only [Lexer.emit, Except.ok.injEq, Option.some.injEq, Prod.mk.injEq] at h
      rw [← h.1]
      exact valid_of_kind (punctuation_kind hkind)
    · split at h
      · rename_i hletter
        simp only [Lexer.emit, Except.ok.injEq, Option.some.injEq, Prod.mk.injEq] at h
        obtain ⟨rfl, -⟩ := h
        intro _
        have htext := textTo_bumpWhile [c] rest isIdChar offset (offset + 1)
        simp only [List.cons_append, List.nil_append] at htext
        simp only [Lexer.token, htext]
        exact .plain (isIdentifier_bumpWhile hletter)
      · cases h

/-- The words of a text are words of their class. -/
theorem valid_lexFrom {l : Lexer} {tokens : List Token} (h : l.lexFrom = .ok tokens) :
    ∀ t ∈ tokens, t.Valid := by
  fun_induction Lexer.lexFrom l generalizing tokens with
  | case1 => cases h
  | case2 =>
    cases h
    simp
  | case3 => cases h
  | case4 l t now hnext rest hrest ih =>
    cases h
    rw [List.forall_mem_cons]
    refine ⟨?_, ih hrest⟩
    unfold Lexer.nextToken at hnext
    split at hnext
    · cases hnext
    · exact valid_scanToken hnext

end Tokens

namespace Parser

section Sorts

variable {α β : Type} {inputLen : Nat}

/-- Every value the parser gives on valid tokens is as said. -/
abbrev Gives (m : Parser α) (Q : α → Prop) : Prop := Reader.Ensures Token.Valid m Q

theorem gives_expected (kind : TokenKind) (Q : α → Prop) :
    Gives (expected inputLen kind : Parser α) Q :=
  .bind (.trivial _) fun _ _ => .fail _

theorem gives_expect (kind : TokenKind) :
    Gives (expect inputLen kind) fun t => t.Valid ∧ t.kind = kind := by
  apply Reader.Ensures.bind (.take _)
  rintro (_ | t) ht
  · exact gives_expected kind _
  · have := ht t rfl
    exact .pure (by simpa using this)

theorem gives_name : Gives (expect inputLen .id) fun t => IsName t.name := by
  apply (gives_expect .id).mono
  rintro t ⟨hvalid, hkind⟩
  have hword := hvalid (by rw [hkind]; decide)
  rw [hkind] at hword
  rwa [IsName, Token.name, String.toList_ofList]

/-- What comes after a part whose value does not matter. -/
theorem gives_after {m : Parser α} {f : α → Parser β} {Q : β → Prop}
    (h : ∀ a, Gives (f a) Q) : Gives (m >>= f) Q :=
  .bind (.trivial _) fun a _ => h a

/-- One more item of a list that is as said. -/
theorem forall_mem_concat {α : Type} {P : α → Prop} {as : List α} {a : α} (has : ∀ x ∈ as, P x)
    (ha : P a) : ∀ x ∈ as ++ [a], P x := by
  intro x hx
  rcases List.mem_append.mp hx with hx | hx
  · exact has x hx
  · rw [List.mem_singleton.mp hx]
    exact ha

theorem gives_delimited {opening closing : TokenKind} {parse : Parser α} {Q : α → Prop}
    (h : Gives parse Q) : Gives (delimited inputLen opening closing parse) fun as => ∀ a ∈ as, Q a := by
  apply gives_after
  intro _
  apply gives_after
  rintro (_ | t)
  · apply Reader.Ensures.loop fun as => ∀ a ∈ as, Q a
    · intro as has
      apply Reader.Ensures.bind h
      intro a ha
      have hall : ∀ x ∈ as ++ [a], Q x := forall_mem_concat has ha
      apply gives_after
      rintro (_ | t)
      · apply gives_after
        intro _
        exact .pure hall
      · exact .pure hall
    · simp
  · exact .pure (by simp)

/-- The sorts that a state of the loop holds are named well. -/
def SortState.Named (state : SortState) : Prop :=
  (∀ frame ∈ state.1, IsName frame.name ∧ ∀ s ∈ frame.arguments, s.Named) ∧
    ∀ s ∈ state.2, s.Named

theorem gives_reduceSort {stack : List SortFrame} {s : KoreSort} (h : SortState.Named (stack, some s)) :
    Gives (reduceSort inputLen stack s) (Sum.elim SortState.Named KoreSort.Named) := by
  have hs := h.2 s rfl
  rcases stack with _ | ⟨⟨name, arguments⟩, stack⟩
  · exact .pure hs
  · obtain ⟨hframe, hstack⟩ := List.forall_mem_cons.mp h.1
    have hall : ∀ x ∈ arguments ++ [s], x.Named := forall_mem_concat hframe.2 hs
    apply gives_after
    rintro (_ | t)
    · apply gives_after
      intro _
      apply Reader.Ensures.pure
      refine ⟨hstack, ?_⟩
      rintro _ ⟨⟩
      exact .application hframe.1 hall
    · apply Reader.Ensures.pure
      refine ⟨List.forall_mem_cons.mpr ⟨⟨hframe.1, hall⟩, hstack⟩, ?_⟩
      rintro _ ⟨⟩

theorem gives_sort : Gives (sort inputLen) KoreSort.Named := by
  apply Reader.Ensures.loop SortState.Named
  · rintro ⟨stack, _ | s⟩ h
    · apply Reader.Ensures.bind gives_name
      intro t hname
      apply gives_after
      rintro (_ | _)
      · apply gives_reduceSort
        refine ⟨h.1, ?_⟩
        rintro _ ⟨⟩
        exact .var hname
      · apply gives_after
        rintro (_ | _)
        · apply Reader.Ensures.pure
          refine ⟨List.forall_mem_cons.mpr ⟨⟨hname, by simp⟩, h.1⟩, ?_⟩
          rintro _ ⟨⟩
        · apply gives_reduceSort
          refine ⟨h.1, ?_⟩
          rintro _ ⟨⟩
          exact .application hname (by simp)
    · exact gives_reduceSort h
  · exact ⟨by simp, by simp⟩

theorem gives_oneSort : Gives (oneSort inputLen) KoreSort.Named := by
  apply gives_after
  intro _
  apply Reader.Ensures.bind gives_sort
  intro s hs
  apply gives_after
  intro _
  exact .pure hs

theorem gives_twoSorts :
    Gives (twoSorts inputLen) fun sorts => sorts.1.Named ∧ sorts.2.Named := by
  apply gives_after
  intro _
  apply Reader.Ensures.bind gives_sort
  intro s hs
  apply gives_after
  intro _
  apply Reader.Ensures.bind gives_sort
  intro t ht
  apply gives_after
  intro _
  exact .pure ⟨hs, ht⟩

theorem gives_symbol : Gives (symbol inputLen) Symbol.Named := by
  apply Reader.Ensures.bind (.bind gives_name fun t ht => .pure ht)
  intro name hname
  apply Reader.Ensures.bind (gives_delimited gives_sort)
  intro sorts hsorts
  exact .pure ⟨hname, hsorts⟩

theorem gives_variable (kind : VariableKind) :
    Gives (readVariable inputLen kind) fun v => v.Named ∧ v.kind = kind := by
  apply Reader.Ensures.bind (gives_expect _)
  rintro t ⟨hvalid, hkind⟩
  apply gives_after
  intro _
  apply Reader.Ensures.bind gives_sort
  intro s hs
  have hword : Word (variableToken kind) t.name.toList := by
    rw [Token.name, String.toList_ofList, ← hkind]
    apply hvalid
    rw [hkind]
    cases kind <;> decide
  exact .pure ⟨⟨hword, hs⟩, rfl⟩

theorem gives_literal (encoding : LiteralEncoding) :
    Gives (stringValue inputLen encoding) fun value => canonical value encoding = value := by
  apply gives_after
  intro t
  split
  · exact .fail _
  · rename_i value hvalue
    exact .pure (canonical_of_unquoteAs hvalue)

theorem gives_ofExcept {e : Except ParseError α} {Q : α → Prop} (h : ∀ a, e = .ok a → Q a) :
    Gives (ofExcept e) Q := by
  cases e with
  | error e => exact .fail e
  | ok a => exact .pure (h a rfl)

end Sorts

section Patterns

variable {inputLen : Nat}

theorem wellFormed_node {p : Pattern} (hnamed : p.NodeNamed) (hformed : p.NodeFormed)
    (h : ∀ c ∈ p.children, c.WellFormed) : p.WellFormed :=
  ⟨.node hnamed fun c hc => (h c hc).1, .node hformed fun c hc => (h c hc).2⟩

/-- The names of a head and the kind of the variable it binds are right. -/
def Head.Named : Head → Prop
  | .application symbol | .associativeApplication _ symbol => symbol.Named
  | .and sort | .or sort | .unary _ sort | .binary _ sort | .associativeOr _ sort => sort.Named
  | .quantifier _ sort v => (sort.Named ∧ v.Named) ∧ v.kind = .element
  | .fixpoint _ v => v.Named ∧ v.kind = .set
  | .roundPredicate _ operand result | .binaryPredicate _ operand result =>
    operand.Named ∧ result.Named

theorem wellFormed_foldl {arguments : List Pattern} (h : ∀ a ∈ arguments, a.WellFormed)
    {first : Pattern} (hfirst : first.WellFormed) {build : Pattern → Pattern → Pattern}
    (hbuild : ∀ p q, p.WellFormed → q.WellFormed → (build p q).WellFormed) :
    (arguments.foldl build first).WellFormed := by
  induction arguments generalizing first with
  | nil => exact hfirst
  | cons a as ih =>
    rw [List.forall_mem_cons] at h
    exact ih h.2 (hbuild _ _ hfirst h.1)

theorem wellFormed_foldAssociativeOr {side : Associativity} {sort : KoreSort}
    {arguments : List Pattern} {p : Pattern} (hsort : sort.Named)
    (h : ∀ a ∈ arguments, a.WellFormed)
    (hfold : foldAssociativeOr side sort arguments = some p) : p.WellFormed := by
  have hor : ∀ left right : Pattern, left.WellFormed → right.WellFormed →
      (Pattern.or sort [left, right]).WellFormed := by
    intro left right hleft hright
    refine wellFormed_node hsort trivial ?_
    simp only [Pattern.children, List.mem_cons, List.not_mem_nil, or_false]
    rintro c (rfl | rfl)
    · exact hleft
    · exact hright
  unfold foldAssociativeOr at hfold
  split at hfold
  · split at hfold
    · cases hfold
    · cases hfold
      rw [List.forall_mem_cons] at h
      exact wellFormed_foldl h.2 h.1 hor
  · split at hfold
    · cases hfold
    · rename_i last rest hreverse
      cases hfold
      have hall : ∀ a ∈ last :: rest, a.WellFormed := by
        rw [← hreverse]
        exact fun a ha => h a (List.mem_reverse.mp ha)
      rw [List.forall_mem_cons] at hall
      exact wellFormed_foldl hall.2 hall.1 fun p q hp hq => hor q p hq hp

/-- A head with well-formed arguments gives a well-formed pattern. -/
theorem wellFormed_finish {head : Head} {arguments : List Pattern} {offset : Nat} {p : Pattern}
    (hhead : head.Named) (harguments : ∀ a ∈ arguments, a.WellFormed)
    (h : head.finish arguments offset = .ok p) : p.WellFormed := by
  unfold Head.finish at h
  split at h
  case h_17 =>
    split at h
    · cases h
    · rename_i hne
      cases h
      exact wellFormed_node hhead (by simpa [Pattern.NodeFormed] using hne) harguments
  case h_18 =>
    split at h
    · cases h
    · rename_i hfold
      cases h
      exact wellFormed_foldAssociativeOr hhead harguments hfold
  case h_19 => cases h
  all_goals
    cases h
  case h_9 | h_10 => exact wellFormed_node hhead.1 hhead.2 harguments
  case h_11 | h_12 => exact wellFormed_node hhead.1 hhead.2 harguments
  all_goals exact wellFormed_node hhead trivial harguments

def Frame.WellFormed (frame : Frame) : Prop :=
  frame.head.Named ∧ ∀ a ∈ frame.arguments, a.WellFormed

/-- What the start of a pattern gives is well formed. -/
def Started.WellFormed : Started → Prop
  | .value p => p.WellFormed
  | .frame f => f.WellFormed

/-- The patterns that a state of the loop holds are well formed. -/
def PatternState.WellFormed (state : PatternState) : Prop :=
  (∀ frame ∈ state.1, frame.WellFormed) ∧ ∀ p ∈ state.2, p.WellFormed

theorem gives_fixed {head : Head} {arity : Nat} (h : head.Named) :
    Gives (fixed inputLen head arity) Started.WellFormed := by
  apply gives_after
  intro _
  exact .pure ⟨h, by simp [Frame.exact]⟩

theorem gives_variadic {head : Head} {outer : Bool} (h : head.Named) :
    Gives (variadic inputLen head outer) Started.WellFormed := by
  apply gives_after
  intro _
  apply gives_after
  rintro (_ | _)
  · exact .pure ⟨h, by simp⟩
  · apply gives_after
    intro _
    apply gives_after
    intro offset
    apply Reader.Ensures.bind (gives_ofExcept fun p hp => hp)
    intro p hp
    exact .pure (wellFormed_finish h (by simp) hp)

theorem gives_associative (side : Associativity) :
    Gives (associative inputLen side) Started.WellFormed := by
  apply gives_after
  intro _
  apply gives_after
  intro _
  apply gives_after
  intro _
  apply gives_after
  intro _
  apply gives_after
  rintro (_ | or)
  · apply Reader.Ensures.bind gives_symbol
    intro symbol hsymbol
    exact gives_variadic hsymbol
  · apply Reader.Ensures.bind (gives_delimited gives_sort)
    intro sorts hsorts
    split
    · exact gives_variadic (hsorts _ List.mem_cons_self)
    · exact .fail _

theorem gives_sorted {kind : TokenKind} {start : KoreSort → Parser Started}
    (h : ∀ s, s.Named → Gives (start s) Started.WellFormed) :
    Gives (sorted inputLen kind start) Started.WellFormed := by
  apply gives_after
  intro _
  exact .bind gives_oneSort h

theorem gives_startConstant {kind : TokenKind} {constant : KoreSort → Pattern}
    (h : ∀ s, s.Named → (constant s).WellFormed) :
    Gives (startConstant inputLen kind constant) Started.WellFormed := by
  apply gives_sorted
  intro s hs
  apply gives_after
  intro _
  apply gives_after
  intro _
  exact .pure (h s hs)

theorem gives_startQuantifier (kind : TokenKind) :
    Gives (startQuantifier inputLen kind) Started.WellFormed := by
  apply gives_sorted
  intro s hs
  apply gives_after
  intro _
  apply Reader.Ensures.bind (gives_variable .element)
  rintro v ⟨hv, hkind⟩
  apply gives_after
  intro _
  exact .pure ⟨⟨⟨hs, hv⟩, hkind⟩, by simp [Frame.exact]⟩

theorem gives_startFixpoint (kind : TokenKind) :
    Gives (startFixpoint inputLen kind) Started.WellFormed := by
  apply gives_after
  intro _
  apply gives_after
  intro _
  apply gives_after
  intro _
  apply gives_after
  intro _
  apply Reader.Ensures.bind (gives_variable .set)
  rintro v ⟨hv, hkind⟩
  apply gives_after
  intro _
  exact .pure ⟨⟨hv, hkind⟩, by simp [Frame.exact]⟩

theorem gives_startPredicate {kind : TokenKind} {head : KoreSort → KoreSort → Head} {arity : Nat}
    (h : ∀ s t, s.Named ∧ t.Named → (head s t).Named) :
    Gives (startPredicate inputLen kind head arity) Started.WellFormed := by
  apply gives_after
  intro _
  apply Reader.Ensures.bind gives_twoSorts
  rintro ⟨s, t⟩ hsorts
  exact gives_fixed (h s t hsorts)

theorem wellFormed_leaf {p : Pattern} (hnamed : p.NodeNamed) (hformed : p.NodeFormed)
    (hleaf : p.children = []) : p.WellFormed :=
  wellFormed_node hnamed hformed (by simp [hleaf])

theorem gives_domainValue : Gives (domainValue inputLen) Pattern.WellFormed := by
  apply gives_after
  intro _
  apply Reader.Ensures.bind gives_oneSort
  intro s hs
  apply gives_after
  intro _
  apply Reader.Ensures.bind (gives_literal _)
  intro value hvalue
  apply gives_after
  intro _
  exact .pure (wellFormed_leaf hs hvalue rfl)

theorem gives_startToken (token : Token) :
    Gives (startToken inputLen token) Started.WellFormed := by
  unfold startToken
  split
  case h_1 =>
    apply Reader.Ensures.bind (P := Pattern.WellFormed)
    · apply Reader.Ensures.bind (gives_literal _)
      exact fun value hvalue => .pure (wellFormed_leaf trivial hvalue rfl)
    · exact fun p hp => .pure hp
  case h_2 =>
    apply gives_after
    rintro (_ | _)
    · apply Reader.Ensures.bind gives_symbol
      intro symbol hsymbol
      exact gives_variadic hsymbol
    · apply Reader.Ensures.bind (gives_variable .element)
      exact fun v hv => .pure (wellFormed_leaf hv.1 trivial rfl)
  case h_3 =>
    apply Reader.Ensures.bind (gives_variable .set)
    exact fun v hv => .pure (wellFormed_leaf hv.1 trivial rfl)
  case h_4 | h_5 => exact gives_startConstant fun s hs => wellFormed_leaf hs trivial rfl
  case h_6 | h_7 => exact gives_sorted fun s hs => gives_variadic hs
  case h_8 | h_9 | h_10 | h_11 | h_12 => exact gives_sorted fun s hs => gives_fixed hs
  case h_13 | h_14 => exact gives_startQuantifier _
  case h_15 | h_16 => exact gives_startFixpoint _
  case h_17 | h_18 | h_19 | h_20 => exact gives_startPredicate fun s t h => h
  case h_21 =>
    apply Reader.Ensures.bind gives_domainValue
    exact fun p hp => .pure hp
  case h_22 => exact gives_associative .left
  case h_23 => exact gives_associative .right
  case h_24 => exact .fail _

theorem gives_closeFrame {frame : Frame} {stack : List Frame} (hframe : frame.WellFormed)
    (hstack : ∀ frame ∈ stack, frame.WellFormed) :
    Gives (closeFrame inputLen frame stack)
      (Sum.elim PatternState.WellFormed Pattern.WellFormed) := by
  apply gives_after
  intro _
  apply gives_after
  intro _
  apply gives_after
  intro offset
  apply Reader.Ensures.bind (gives_ofExcept fun p hp => hp)
  intro p hp
  apply Reader.Ensures.pure
  refine ⟨hstack, ?_⟩
  rintro _ ⟨⟩
  exact wellFormed_finish hframe.1 hframe.2 hp

theorem gives_reducePattern {stack : List Frame} {p : Pattern}
    (h : PatternState.WellFormed (stack, some p)) :
    Gives (reducePattern inputLen stack p)
      (Sum.elim PatternState.WellFormed Pattern.WellFormed) := by
  have hp := h.2 p rfl
  rcases stack with _ | ⟨⟨head, arguments, arity, outer⟩, stack⟩
  · exact .pure hp
  · obtain ⟨hframe, hstack⟩ := List.forall_mem_cons.mp h.1
    have hnext : Frame.WellFormed ⟨head, arguments ++ [p], arity, outer⟩ :=
      ⟨hframe.1, forall_mem_concat hframe.2 hp⟩
    have hopen : PatternState.WellFormed (⟨head, arguments ++ [p], arity, outer⟩ :: stack, none) := by
      refine ⟨List.forall_mem_cons.mpr ⟨hnext, hstack⟩, ?_⟩
      rintro _ ⟨⟩
    cases arity with
    | variadic =>
      apply gives_after
      rintro (_ | _)
      · exact gives_closeFrame hnext hstack
      · exact .pure hopen
    | exact arity =>
      dsimp only [reducePattern]
      split
      · apply gives_after
        intro _
        exact .pure hopen
      · exact gives_closeFrame hnext hstack

/-- Every pattern the parser gives is well formed. -/
theorem gives_pattern : Gives (pattern inputLen) Pattern.WellFormed := by
  apply Reader.Ensures.loop PatternState.WellFormed
  · rintro ⟨stack, _ | p⟩ h
    · apply Reader.Ensures.bind (P := Started.WellFormed)
      · apply gives_after
        rintro (_ | token)
        · exact gives_expected _ _
        · exact gives_startToken token
      · rintro (p | frame) hstarted
        · apply gives_reducePattern
          refine ⟨h.1, ?_⟩
          rintro _ ⟨⟩
          exact hstarted
        · apply Reader.Ensures.pure
          refine ⟨List.forall_mem_cons.mpr ⟨hstarted, h.1⟩, ?_⟩
          rintro _ ⟨⟩
    · exact gives_reducePattern h
  · exact ⟨by simp, by simp⟩

end Patterns

section Sentences

variable {inputLen : Nat}

theorem gives_attributes : Gives (attributes inputLen) Attributes.WellFormed := by
  apply Reader.Ensures.bind (gives_delimited gives_pattern)
  exact fun patterns h => .pure h

theorem gives_sortVariables :
    Gives (sortVariables inputLen) fun parameters => ∀ name ∈ parameters, IsName name := by
  apply gives_delimited
  apply Reader.Ensures.bind gives_name
  exact fun t ht => .pure ht

theorem gives_importSentence : Gives (importSentence inputLen) Sentence.WellFormed := by
  apply gives_after
  intro _
  apply Reader.Ensures.bind gives_name
  intro t hname
  apply Reader.Ensures.bind gives_attributes
  exact fun a ha => .pure ⟨hname, ha⟩

theorem gives_sortDeclaration (hooked : Bool) :
    Gives (sortDeclaration inputLen hooked) Sentence.WellFormed := by
  apply gives_after
  intro _
  apply Reader.Ensures.bind gives_name
  intro t hname
  apply Reader.Ensures.bind gives_sortVariables
  intro parameters hparameters
  apply Reader.Ensures.bind gives_attributes
  exact fun a ha => .pure ⟨hname, hparameters, ha⟩

theorem gives_symbolDeclaration (hooked : Bool) :
    Gives (symbolDeclaration inputLen hooked) Sentence.WellFormed := by
  apply gives_after
  intro _
  apply Reader.Ensures.bind gives_symbol
  intro symbol hsymbol
  apply Reader.Ensures.bind (gives_delimited gives_sort)
  intro sorts hsorts
  apply gives_after
  intro _
  apply Reader.Ensures.bind gives_sort
  intro s hs
  apply Reader.Ensures.bind gives_attributes
  exact fun a ha => .pure ⟨hsymbol, hsorts, hs, ha⟩

theorem gives_aliasLeftVariable :
    Gives (aliasLeftVariable inputLen) fun p => ∃ v : Variable, p = .var v ∧ v.Named := by
  have hread : ∀ kind, Gives (do return Pattern.var (← readVariable inputLen kind))
      fun p => ∃ v : Variable, p = .var v ∧ v.Named := by
    intro kind
    apply Reader.Ensures.bind (gives_variable kind)
    exact fun v hv => .pure ⟨v, rfl, hv.1⟩
  apply gives_after
  rintro (_ | ⟨token, rest⟩)
  · exact .fail _
  · apply gives_after
    intro kind
    split
    · exact hread kind
    · exact .fail _

theorem gives_aliasDeclaration : Gives (aliasDeclaration inputLen) Sentence.WellFormed := by
  apply gives_after
  intro _
  apply Reader.Ensures.bind gives_symbol
  intro symbol hsymbol
  apply Reader.Ensures.bind (gives_delimited gives_sort)
  intro sorts hsorts
  apply gives_after
  intro _
  apply Reader.Ensures.bind gives_sort
  intro s hs
  apply gives_after
  intro _
  apply Reader.Ensures.bind gives_symbol
  intro applied happlied
  apply Reader.Ensures.bind (gives_delimited gives_aliasLeftVariable)
  intro arguments harguments
  apply gives_after
  intro _
  apply Reader.Ensures.bind gives_pattern
  intro right hright
  apply Reader.Ensures.bind gives_attributes
  intro a ha
  apply Reader.Ensures.pure
  have hvariables : ∃ vs : List Variable, arguments = vs.map .var ∧ ∀ v ∈ vs, v.Named := by
    clear hright ha
    induction arguments with
    | nil => exact ⟨[], rfl, by simp⟩
    | cons p ps ih =>
      rw [List.forall_mem_cons] at harguments
      obtain ⟨⟨v, rfl, hv⟩, hps⟩ := harguments
      obtain ⟨vs, rfl, hvs⟩ := ih hps
      exact ⟨v :: vs, rfl, List.forall_mem_cons.mpr ⟨hv, hvs⟩⟩
  obtain ⟨vs, rfl, hvs⟩ := hvariables
  exact ⟨hsymbol, hsorts, hs, ⟨applied, vs, rfl, happlied, hvs⟩, hright, ha⟩

theorem gives_axiomSentence (claim : Bool) :
    Gives (axiomSentence inputLen claim) Sentence.WellFormed := by
  apply gives_after
  intro _
  apply Reader.Ensures.bind gives_sortVariables
  intro parameters hparameters
  apply Reader.Ensures.bind gives_pattern
  intro p hp
  apply Reader.Ensures.bind gives_attributes
  intro a ha
  apply Reader.Ensures.pure
  cases claim <;> exact ⟨hparameters, hp, ha⟩

theorem gives_sentence : Gives (sentence inputLen) Sentence.WellFormed := by
  apply gives_after
  rintro (_ | token)
  · exact gives_expected _ _
  · show Gives (sentenceToken inputLen token) _
    unfold sentenceToken
    split
    case h_1 => exact gives_importSentence
    case h_2 | h_3 => exact gives_sortDeclaration _
    case h_4 | h_5 => exact gives_symbolDeclaration _
    case h_6 => exact gives_aliasDeclaration
    case h_7 | h_8 => exact gives_axiomSentence _
    case h_9 => exact .fail _

theorem gives_module : Gives (module inputLen) Module.WellFormed := by
  apply gives_after
  intro _
  apply Reader.Ensures.bind gives_name
  intro t hname
  apply Reader.Ensures.bind (P := fun sentences => ∀ s ∈ sentences, s.WellFormed)
  · apply Reader.Ensures.loop fun sentences => ∀ s ∈ sentences, s.WellFormed
    · intro sentences hsentences
      apply gives_after
      rintro (_ | token)
      · exact gives_expected _ _
      · dsimp only
        split
        · exact .pure hsentences
        · apply Reader.Ensures.bind gives_sentence
          exact fun s hs => .pure (forall_mem_concat hsentences hs)
    · simp
  · intro sentences hsentences
    apply gives_after
    intro _
    apply Reader.Ensures.bind gives_attributes
    exact fun a ha => .pure ⟨hname, hsentences, ha⟩

/-- Every definition the parser gives is well formed. -/
theorem gives_definition : Gives (definition inputLen) Definition.WellFormed := by
  apply Reader.Ensures.bind gives_attributes
  intro a ha
  apply Reader.Ensures.bind gives_module
  intro first hfirst
  apply Reader.Ensures.bind (P := fun modules => modules ≠ [] ∧ ∀ m ∈ modules, m.WellFormed)
  · apply Reader.Ensures.loop fun modules => modules ≠ [] ∧ ∀ m ∈ modules, m.WellFormed
    · rintro modules ⟨hne, hmodules⟩
      apply gives_after
      rintro (_ | token)
      · exact .pure ⟨hne, hmodules⟩
      · apply Reader.Ensures.bind gives_module
        exact fun m hm => .pure ⟨by simp, forall_mem_concat hmodules hm⟩
    · exact ⟨by simp, by simpa using hfirst⟩
  · exact fun modules hmodules => .pure ⟨ha, hmodules⟩

/-- What a parser gives on valid tokens it gives on every text. -/
theorem of_parseText {α : Type} {parse : Nat → Parser α} {Q : α → Prop} {input : List Char}
    {a : α} (hgives : ∀ inputLen, Gives (parse inputLen) Q)
    (h : parseText parse input = .ok a) : Q a := by
  unfold parseText at h
  split at h
  · cases h
  · rename_i tokens hlex
    unfold finish at h
    split at h
    · cases h
    · rename_i hrun
      cases h
      exact (hgives _).of_run (valid_lexFrom hlex) hrun
    · cases h

end Sentences

end Parser

end KRust.Kore
