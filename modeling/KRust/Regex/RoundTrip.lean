import KRust.Regex.Parser

/-!
The canonical text of a regular expression that some text spells is read as the expression.
What the parser gives is valid; a valid body is written so that every printer's text is what
the reader of its level reads.
-/

set_option linter.unusedSectionVars false

namespace KRust

/-- A body that the parser can give. -/
inductive RegexBody.Valid : RegexBody → Prop where
  | char (c : Char) : Valid (.char c)
  | anyChar : Valid .anyChar
  | named {name : String} : Regex.Parser.validIdentifier name.toList = true → Valid (.named name)
  | charClass (negated : Bool) {members : List CharClass} :
    members ≠ [] → Valid (.charClass negated members)
  | union {left right : RegexBody} : Valid left → Valid right → Valid (.union left right)
  | concat {members : List RegexBody} :
    2 ≤ members.length → (∀ b ∈ members, Valid b) → Valid (.concat members)
  | zeroOrMore {body : RegexBody} : Valid body → Valid (.zeroOrMore body)
  | zeroOrOne {body : RegexBody} : Valid body → Valid (.zeroOrOne body)
  | oneOrMore {body : RegexBody} : Valid body → Valid (.oneOrMore body)
  | exactly {body : RegexBody} {count : Nat} :
    Valid body → count ≤ Regex.Parser.maxCount → Valid (.exactly body count)
  | atLeast {body : RegexBody} {count : Nat} :
    Valid body → count ≤ Regex.Parser.maxCount → Valid (.atLeast body count)
  | range {body : RegexBody} {least most : Nat} :
    Valid body → least ≤ Regex.Parser.maxCount → most ≤ Regex.Parser.maxCount →
      Valid (.range body least most)

namespace Regex.Parser

open KRust.Lib

variable (input : String)

section Image

/-- Every value that a reader gives is as said. -/
abbrev Gives {α : Type} (m : Run α) (Q : α → Prop) : Prop :=
  Reader.Ensures (fun _ : Char => True) m Q

variable {α β : Type} {m : Run α} {f : α → Run β} {Q : β → Prop}

/-- Whatever a reader gives, what follows it is as said. -/
theorem Gives.after (h : ∀ a, Gives (f a) Q) : Gives (m >>= f) Q :=
  (Reader.Ensures.trivial m).bind fun a _ => h a

theorem gives_error (message : String) : Gives (error input message) Q :=
  Gives.after fun _ => .fail _

theorem gives_unescapedBefore (c : Char) : Gives (unescapedBefore input c) Q :=
  Gives.after fun _ => .fail _

theorem parseInteger_gives : Gives (parseInteger input) (· ≤ maxCount) := by
  apply Gives.after
  intro start
  apply Gives.after
  intro digits
  split
  · exact gives_error input _
  · dsimp only
    split
    · exact .fail _
    · exact .pure (Nat.not_lt.mp ‹_›)

theorem parseRepetition_gives {body : RegexBody} (h : body.Valid) :
    Gives (parseRepetition input body) RegexBody.Valid := by
  apply Reader.Ensures.bind (parseInteger_gives input)
  intro lower hlower
  apply Gives.after
  intro closed
  split
  · exact .pure (.exactly h hlower)
  · apply Gives.after
    intro _
    apply Gives.after
    intro closed
    split
    · exact .pure (.atLeast h hlower)
    · apply Reader.Ensures.bind (parseInteger_gives input)
      intro upper hupper
      apply Gives.after
      intro _
      exact .pure (.range h hlower hupper)

theorem parseNamed_gives : Gives (parseNamed input) RegexBody.Valid := by
  apply Gives.after
  intro name
  apply Gives.after
  intro closed
  split
  · exact gives_error input _
  · split
    · apply Reader.Ensures.pure
      apply RegexBody.Valid.named
      rw [String.toList_ofList]
      assumption
    · exact Gives.after fun _ => .fail _

theorem repeatStep_gives {body : RegexBody} (h : body.Valid) :
    Gives (repeatStep input body) (Sum.elim RegexBody.Valid RegexBody.Valid) := by
  apply Gives.after
  intro tokens
  split
  · exact Gives.after fun _ => .pure h.zeroOrOne
  · exact Gives.after fun _ => .pure h.zeroOrMore
  · exact Gives.after fun _ => .pure h.oneOrMore
  · split
    · apply Gives.after
      intro _
      exact Reader.Ensures.bind (parseRepetition_gives input h) fun body hbody => .pure hbody
    · exact .pure h
  · exact .pure h

variable {self : Run RegexBody}

theorem parseSimple_gives (hself : Gives self RegexBody.Valid) :
    Gives (parseSimple input self) RegexBody.Valid := by
  apply Gives.after
  intro dot
  split
  · exact .pure .anyChar
  · apply Gives.after
    intro parenthesis
    split
    · apply Reader.Ensures.bind hself
      intro body hbody
      exact Gives.after fun _ => .pure hbody
    · apply Gives.after
      intro brace
      split
      · exact parseNamed_gives input
      · exact Gives.after fun c => .pure (.char c)

theorem parseCharClass_gives (hself : Gives self RegexBody.Valid) :
    Gives (parseCharClass input self) RegexBody.Valid := by
  apply Gives.after
  intro bracket
  split
  · exact parseSimple_gives input hself
  · apply Gives.after
    intro negated
    apply Gives.after
    intro members
    split
    · exact gives_error input _
    · apply Reader.Ensures.pure
      apply RegexBody.Valid.charClass
      rintro rfl
      exact ‹¬_› rfl

theorem parseRepeat_gives (hself : Gives self RegexBody.Valid) :
    Gives (parseRepeat input self) RegexBody.Valid := by
  apply Reader.Ensures.bind (parseCharClass_gives input hself)
  intro body hbody
  exact Reader.Ensures.loop RegexBody.Valid (fun body h => repeatStep_gives input h) hbody

/-- What the loop of a concatenation keeps: there is a first member, and all are valid. -/
def Members (members : List RegexBody) : Prop := members ≠ [] ∧ ∀ b ∈ members, b.Valid

theorem concatStep_gives (hself : Gives self RegexBody.Valid) {members : List RegexBody}
    (h : Members members) : Gives (concatStep input self members) (Sum.elim Members Members) := by
  apply Gives.after
  intro tokens
  split
  · exact .pure h
  · split
    · exact .pure h
    · apply Reader.Ensures.bind (parseRepeat_gives input hself)
      intro body hbody
      apply Reader.Ensures.pure
      constructor
      · simp
      · intro b hb
        rcases List.mem_append.mp hb with hb | hb
        · exact h.2 b hb
        · rw [List.mem_singleton.mp hb]
          exact hbody

theorem parseConcat_gives (hself : Gives self RegexBody.Valid) :
    Gives (parseConcat input self) RegexBody.Valid := by
  apply Reader.Ensures.bind (parseRepeat_gives input hself)
  intro first hfirst
  have hmembers : Members [first] := ⟨by simp, by simpa using hfirst⟩
  apply Reader.Ensures.bind
    (Reader.Ensures.loop Members (fun members h => concatStep_gives input hself h) hmembers)
  intro members h
  split
  · exact .pure (h.2 _ List.mem_cons_self)
  · rename_i hne
    apply Reader.Ensures.pure
    apply RegexBody.Valid.concat _ h.2
    rcases members with _ | ⟨body, _ | ⟨_, _⟩⟩
    · exact absurd rfl h.1
    · exact absurd rfl (hne body)
    · simp

theorem unionBody_gives (hself : Gives self RegexBody.Valid) :
    Gives (unionBody input self) RegexBody.Valid := by
  apply Reader.Ensures.bind (parseConcat_gives input hself)
  intro left hleft
  apply Gives.after
  intro bar
  split
  · exact .pure hleft
  · apply Gives.after
    intro tokens
    split
    · exact gives_unescapedBefore input _
    · exact Reader.Ensures.bind hself fun right hright => .pure (hleft.union hright)

theorem parseUnion_gives : Gives (parseUnion input) RegexBody.Valid :=
  Reader.Ensures.fix fun _ hself => unionBody_gives input hself

/-- The body of an expression that is read is valid. -/
theorem parseRegex_gives : Gives (parseRegex input) fun regex => regex.body.Valid := by
  apply Gives.after
  intro startLine
  apply Reader.Ensures.bind (parseUnion_gives input)
  intro body hbody
  apply Gives.after
  intro endLine
  apply Gives.after
  intro tokens
  split
  · exact .pure hbody
  · split
    · exact gives_unescapedBefore input _
    · exact gives_error input _

end Image

section Texts

variable {self : Run RegexBody} {α β : Type}

/-- A reader that gives its value hands it on. -/
theorem run_bind_ok {m : Run α} {f : α → Run β} {chars rest : List Char} {a : α}
    (h : m.run chars = .ok (a, rest)) : (m >>= f).run chars = (f a).run rest := by
  rw [Reader.run_bind, h]

theorem run_hit {test : Char → Bool} {f : Option Char → Run β} {c : Char} (h : test c = true)
    (rest : List Char) : (Reader.take test >>= f).run (c :: rest) = (f (some c)).run rest := by
  rw [Reader.run_bind, Reader.run_take_cons, if_pos h]

theorem run_miss {test : Char → Bool} {f : Option Char → Run β} {chars : List Char}
    (h : ∀ c ∈ chars.head?, test c = false) :
    (Reader.take test >>= f).run chars = (f none).run chars := by
  cases chars with
  | nil => rfl
  | cons c rest =>
    rw [Reader.run_bind, Reader.run_take_cons, if_neg]
    rw [h c rfl]
    decide

/-- The characters that the parser reads as something else. -/
def reserved (inClass : Bool) (c : Char) : Bool := if inClass then isReservedClass c else isReserved c

theorem escaped_reserved {inClass : Bool} {c : Char} (h : reserved inClass c = true) :
    escaped c = c := by
  have hclass : ∀ c ∈ ['^', '-', '\\', '[', ']'], escaped c = c :=
    List.forall_iff_forall_mem.mp (by decide)
  have houtside : ∀ c ∈ ['^', '$', '|', '?', '*', '+', '(', ')', '\x7b', '\x7d', '[', ']', '\\',
      '.', '"'], escaped c = c := List.forall_iff_forall_mem.mp (by decide)
  cases inClass with
  | true => exact hclass c (of_decide_eq_true h)
  | false => exact houtside c (of_decide_eq_true h)

/-- How a character is written: after a backslash, which is the escape of it, or as it is. -/
theorem printCharacter_cases (c : Char) (inClass : Bool) :
    (∃ e, printCharacter c inClass = ['\\', e] ∧ escaped e = c) ∨
      (printCharacter c inClass = [c] ∧ reserved inClass c = false) := by
  unfold printCharacter
  split
  · exact .inl ⟨'n', rfl, rfl⟩
  · exact .inl ⟨'r', rfl, rfl⟩
  · exact .inl ⟨'t', rfl, rfl⟩
  · cases hreserved : reserved inClass c with
    | true => exact .inl ⟨c, if_pos hreserved, escaped_reserved hreserved⟩
    | false =>
      have hnot : ¬(if inClass then isReservedClass c else isReserved c) = true := by
        rw [show (if inClass then isReservedClass c else isReserved c) = false from hreserved]
        decide
      exact .inr ⟨if_neg hnot, rfl⟩

theorem backslash_reserved (inClass : Bool) : reserved inClass '\\' = true := by
  cases inClass <;> decide

theorem run_parseCharacter (c : Char) (inClass : Bool) (rest : List Char) :
    (parseCharacter input inClass).run (printCharacter c inClass ++ rest) = .ok (c, rest) := by
  rcases printCharacter_cases c inClass with ⟨e, htext, hescape⟩ | ⟨htext, hreserved⟩
  · rw [htext]
    refine (run_hit rfl (e :: rest)).trans ?_
    show (pure (escaped e) : Run Char).run rest = _
    rw [hescape]
    rfl
  · have hne : c ≠ '\\' := by
      rintro rfl
      rw [backslash_reserved] at hreserved
      cases hreserved
    rw [htext]
    refine (run_miss (by rintro _ ⟨⟩; simpa using hne)).trans ?_
    show (if reserved inClass c then unescaped input c
      else Reader.next >>= fun _ => pure c : Run Char).run (c :: rest) = _
    rw [hreserved]
    rfl

/-- A written character starts with one that is not reserved, or with a backslash. -/
theorem printCharacter_head (c : Char) (inClass : Bool) (rest : List Char) :
    ∃ d tail, printCharacter c inClass ++ rest = d :: tail ∧
      (d = '\\' ∨ reserved inClass d = false) := by
  rcases printCharacter_cases c inClass with ⟨e, htext, -⟩ | ⟨htext, hreserved⟩
  · exact ⟨_, _, by rw [htext]; rfl, .inl rfl⟩
  · exact ⟨_, _, by rw [htext]; rfl, .inr hreserved⟩

/-- A written character does not start with what is reserved there, the backslash apart. -/
theorem printCharacter_misses {c d : Char} {inClass : Bool} (h : reserved inClass d = true)
    (hd : d ≠ '\\') (rest : List Char) :
    ∀ e ∈ (printCharacter c inClass ++ rest).head?, (e == d) = false := by
  obtain ⟨e, tail, htext, hhead⟩ := printCharacter_head c inClass rest
  rw [htext]
  rintro _ ⟨⟩
  rw [beq_eq_false_iff_ne]
  rintro rfl
  rcases hhead with rfl | hhead
  · exact hd rfl
  · rw [h] at hhead
    cases hhead

theorem run_parseClassMember (member : CharClass) {rest : List Char}
    (hrest : ∀ c ∈ rest.head?, (c == '-') = false) :
    (parseClassMember input).run (printClassMember member ++ rest) = .ok (member, rest) := by
  cases member with
  | char c =>
    refine (run_bind_ok (run_parseCharacter input c true rest)).trans ?_
    exact run_miss hrest
  | range first last =>
    rw [printClassMember, List.append_assoc, List.cons_append]
    refine (run_bind_ok (run_parseCharacter input first true _)).trans ?_
    refine (run_hit rfl _).trans ?_
    obtain ⟨d, tail, htext, -⟩ := printCharacter_head last true rest
    have hmiss : ∀ e ∈ (printCharacter last true ++ rest).head?, (e == ']') = false :=
      printCharacter_misses rfl (by decide) rest
    have hlast := run_parseCharacter input last true rest
    rw [htext] at hmiss hlast ⊢
    rw [Reader.run_bind, Reader.run_ahead]
    dsimp only
    split
    · rename_i heq
      cases heq
      exact absurd (hmiss ']' rfl) (by decide)
    · exact run_bind_ok hlast

theorem printClassMember_head (member : CharClass) (rest : List Char) :
    ∃ c chars, printClassMember member ++ rest = printCharacter c true ++ chars := by
  cases member with
  | char c => exact ⟨c, rest, rfl⟩
  | range first last => exact ⟨first, _, List.append_assoc _ _ _⟩

/-- The members of a class are read up to its bracket. -/
theorem run_classLoop (read members : List CharClass) (rest : List Char) :
    (Reader.loop (classStep input) (classStep_advances input) read).run
      (members.flatMap printClassMember ++ ']' :: rest) = .ok (read ++ members, rest) := by
  induction members generalizing read with
  | nil =>
    rw [Reader.loop_eq, List.append_nil]
    rfl
  | cons member members ih =>
    rw [Reader.loop_eq, List.flatMap_cons, List.append_assoc]
    let tail := members.flatMap printClassMember ++ ']' :: rest
    have htail : ∀ c ∈ tail.head?, (c == '-') = false := by
      cases members with
      | nil => rintro _ ⟨⟩; rfl
      | cons next members =>
        obtain ⟨c, chars, htext⟩ := printClassMember_head next
          (members.flatMap printClassMember ++ ']' :: rest)
        show ∀ c ∈ ((next :: members).flatMap printClassMember ++ _).head?, _
        rw [List.flatMap_cons, List.append_assoc, htext]
        exact printCharacter_misses rfl (by decide) chars
    have hmember := run_parseClassMember input member htail
    obtain ⟨c, chars, htext⟩ := printClassMember_head member tail
    have hmiss : ∀ e ∈ (printClassMember member ++ tail).head?, (e == ']') = false := by
      rw [htext]
      exact printCharacter_misses rfl (by decide) chars
    have hstep : (classStep input read).run (printClassMember member ++ tail)
        = .ok (.inl (read ++ [member]), tail) := by
      refine (run_miss hmiss).trans ?_
      obtain ⟨d, chars', hchars, -⟩ := printCharacter_head c true chars
      rw [htext, hchars] at hmember ⊢
      exact run_bind_ok hmember
    refine (run_bind_ok hstep).trans ?_
    show (Reader.loop (classStep input) _ (read ++ [member])).run tail = _
    rw [ih, List.append_assoc]
    rfl

theorem run_parseInteger {n : Nat} (hn : n ≤ maxCount) {rest : List Char}
    (hrest : ∀ c ∈ rest.head?, c.isDigit = false) :
    (parseInteger input).run (printCount n ++ rest) = .ok (n, rest) := by
  have hdigits : ∀ c ∈ printCount n, c.isDigit = true :=
    fun c hc => Nat.isDigit_of_mem_toDigits (by decide) (by decide) hc
  have hrest : rest.takeWhile Char.isDigit = [] ∧ rest.dropWhile Char.isDigit = rest := by
    cases rest with
    | nil => exact ⟨rfl, rfl⟩
    | cons c rest => simp [hrest c rfl]
  have htake : (Reader.takeWhile Char.isDigit : Run (List Char)).run (printCount n ++ rest)
      = .ok (printCount n, rest) := by
    rw [Reader.run_takeWhile, List.takeWhile_append_of_pos hdigits,
      List.dropWhile_append_of_pos hdigits, hrest.1, hrest.2, List.append_nil]
  have hvalue : Nat.ofDigitChars 10 (printCount n) 0 = n :=
    Nat.ofDigitChars_toDigits (by decide) (by decide)
  have hne : (printCount n).isEmpty = false := List.isEmpty_eq_false_iff.mpr Nat.toDigits_ne_nil
  have hahead : (Reader.ahead : Run (List Char)).run (printCount n ++ rest)
      = .ok (printCount n ++ rest, printCount n ++ rest) := rfl
  refine (run_bind_ok hahead).trans ?_
  refine (run_bind_ok htake).trans ?_
  dsimp only
  rw [hne, hvalue, if_neg Bool.false_ne_true, if_neg (Nat.not_lt.mpr hn)]
  rfl

theorem run_expect (c : Char) (rest : List Char) :
    (expect input c).run (c :: rest) = .ok ((), rest) := by
  show (if c = c then pure () else _ : Run Unit).run rest = _
  rw [if_pos rfl]
  rfl

end Texts

section Postfix

variable {body : RegexBody}

/-- What may follow a repetition: no postfix operator. -/
def AfterRepeat (rest : List Char) : Prop :=
  ∀ c tail, rest = c :: tail → c ≠ '?' ∧ c ≠ '*' ∧ c ≠ '+' ∧
    (c = '\x7b' → ∀ d ∈ tail.head?, d.isDigit = false)

theorem repeatStep_stops {rest : List Char} (h : AfterRepeat rest) :
    (repeatStep input body).run rest = .ok (.inr body, rest) := by
  cases rest with
  | nil => rfl
  | cons c tail =>
    obtain ⟨hquestion, hstar, hplus, hbrace⟩ := h c tail rfl
    rw [repeatStep, Reader.run_bind, Reader.run_ahead]
    dsimp only
    split
    · rename_i heq; cases heq; exact absurd rfl hquestion
    · rename_i heq; cases heq; exact absurd rfl hstar
    · rename_i heq; cases heq; exact absurd rfl hplus
    · rename_i heq
      cases heq
      rw [hbrace rfl _ rfl]
      rfl
    · rfl

/-- A body is read, and what follows is no postfix of it. -/
theorem repeatLoop_stops {rest : List Char} (h : AfterRepeat rest) :
    (Reader.loop (repeatStep input) (repeatStep_advances input) body).run rest
      = .ok (body, rest) := by
  rw [Reader.loop_eq]
  exact run_bind_ok (repeatStep_stops input h)

/-- A postfix operator is read, and the rest of the loop is that of the repetition. -/
theorem repeatLoop_goes {repeated : RegexBody} {chars rest : List Char}
    (hstep : (repeatStep input body).run chars = .ok (.inl repeated, rest))
    (hrest : AfterRepeat rest) :
    (Reader.loop (repeatStep input) (repeatStep_advances input) body).run chars
      = .ok (repeated, rest) := by
  rw [Reader.loop_eq]
  exact (run_bind_ok hstep).trans (repeatLoop_stops input hrest)

/-- The bounds of a repetition are read after its brace. -/
theorem repeatStep_bounds {repeated : RegexBody} {n : Nat} {chars rest : List Char}
    (h : (parseRepetition input body).run (printCount n ++ chars) = .ok (repeated, rest)) :
    (repeatStep input body).run ('\x7b' :: printCount n ++ chars) = .ok (.inl repeated, rest) := by
  obtain ⟨d, tail, hcount⟩ : ∃ d tail, printCount n = d :: tail :=
    List.exists_cons_of_ne_nil Nat.toDigits_ne_nil
  have hdigit : d.isDigit = true := by
    apply Nat.isDigit_of_mem_toDigits (b := 10) (n := n) (by decide) (by decide)
    rw [← printCount, hcount]
    exact List.mem_cons_self
  rw [hcount] at h ⊢
  show (if d.isDigit then Reader.next >>= fun _ => parseRepetition input body >>= fun repeated =>
    pure (.inl repeated) else pure (.inr body) : Run (RegexBody ⊕ RegexBody)).run _ = _
  rw [hdigit, if_pos rfl]
  exact run_bind_ok h

theorem run_exactly {count : Nat} (h : count ≤ maxCount) (rest : List Char) :
    (parseRepetition input body).run (printCount count ++ '\x7d' :: rest)
      = .ok (.exactly body count, rest) :=
  (run_bind_ok (run_parseInteger input h (by rintro _ ⟨⟩; rfl))).trans (run_hit rfl _)

theorem run_atLeast {count : Nat} (h : count ≤ maxCount) (rest : List Char) :
    (parseRepetition input body).run (printCount count ++ ',' :: '\x7d' :: rest)
      = .ok (.atLeast body count, rest) := by
  refine (run_bind_ok (run_parseInteger input h (by rintro _ ⟨⟩; rfl))).trans ?_
  refine (run_miss (by rintro _ ⟨⟩; rfl)).trans ?_
  exact (run_bind_ok (run_expect input ',' _)).trans (run_hit rfl _)

theorem run_range {least most : Nat} (hleast : least ≤ maxCount) (hmost : most ≤ maxCount)
    (rest : List Char) :
    (parseRepetition input body).run
      (printCount least ++ ',' :: (printCount most ++ '\x7d' :: rest))
      = .ok (.range body least most, rest) := by
  refine (run_bind_ok (run_parseInteger input hleast (by rintro _ ⟨⟩; rfl))).trans ?_
  refine (run_miss (by rintro _ ⟨⟩; rfl)).trans ?_
  refine (run_bind_ok (run_expect input ',' _)).trans ?_
  have hmiss : ∀ c ∈ (printCount most ++ '\x7d' :: rest).head?, (c == '\x7d') = false := by
    obtain ⟨d, tail, hcount⟩ : ∃ d tail, printCount most = d :: tail :=
      List.exists_cons_of_ne_nil Nat.toDigits_ne_nil
    rw [hcount]
    rintro _ ⟨⟩
    have hdigit : d.isDigit = true := by
      apply Nat.isDigit_of_mem_toDigits (b := 10) (n := most) (by decide) (by decide)
      rw [← printCount, hcount]
      exact List.mem_cons_self
    rw [beq_eq_false_iff_ne]
    rintro rfl
    cases hdigit
  refine (run_miss hmiss).trans ?_
  refine (run_bind_ok (run_parseInteger input hmost (by rintro _ ⟨⟩; rfl))).trans ?_
  exact run_bind_ok (run_expect input '\x7d' rest)

/-- The text of a repetition is that of its body and a postfix that is read. -/
theorem run_repeat {repeated : RegexBody} {self : Run RegexBody} {chars rest : List Char}
    (hbody : (parseCharClass input self).run (printClass body ++ chars) = .ok (body, chars))
    (hstep : (repeatStep input body).run chars = .ok (.inl repeated, rest))
    (hrest : AfterRepeat rest) :
    (parseRepeat input self).run (printClass body ++ chars) = .ok (repeated, rest) :=
  (run_bind_ok hbody).trans (repeatLoop_goes input hstep hrest)

end Postfix

section Levels

/-- What may follow a concatenation, and what may follow a union. -/
def AfterConcat (rest : List Char) : Prop := ∀ c ∈ rest.head?, c = ')' ∨ c = '|' ∨ c = '$'

def AfterUnion (rest : List Char) : Prop := ∀ c ∈ rest.head?, c = ')' ∨ c = '$'

theorem AfterUnion.concat {rest : List Char} (h : AfterUnion rest) : AfterConcat rest := by
  intro c hc
  rcases h c hc with hc | hc
  · exact .inl hc
  · exact .inr (.inr hc)

theorem AfterConcat.afterRepeat {rest : List Char} (h : AfterConcat rest) : AfterRepeat rest := by
  rintro c tail rfl
  have hclosing : ∀ c ∈ [')', '|', '$'], c ≠ '?' ∧ c ≠ '*' ∧ c ≠ '+' ∧ c ≠ '\x7b' :=
    List.forall_iff_forall_mem.mp (by decide)
  obtain ⟨hquestion, hstar, hplus, hbrace⟩ := hclosing c (by simpa using h c rfl)
  exact ⟨hquestion, hstar, hplus, fun hc => absurd hc hbrace⟩

/-- A text that starts a member of a concatenation. -/
def Opens (text : List Char) : Prop :=
  ∃ c tail, text = c :: tail ∧ c ≠ '?' ∧ c ≠ '*' ∧ c ≠ '+' ∧ c ≠ ')' ∧ c ≠ '|' ∧ c ≠ '$' ∧
    c ≠ '^' ∧ (c = '\x7b' → ∃ d tail', tail = d :: tail' ∧ d.isDigit = false)

theorem Opens.append {text : List Char} (h : Opens text) (rest : List Char) :
    Opens (text ++ rest) := by
  obtain ⟨c, tail, rfl, hquestion, hstar, hplus, hclose, hbar, hend, hstart, hbrace⟩ := h
  refine ⟨c, tail ++ rest, rfl, hquestion, hstar, hplus, hclose, hbar, hend, hstart, fun hc => ?_⟩
  obtain ⟨d, tail', rfl, hd⟩ := hbrace hc
  exact ⟨d, tail' ++ rest, rfl, hd⟩

theorem Opens.afterRepeat {text : List Char} (h : Opens text) : AfterRepeat text := by
  obtain ⟨c, tail, rfl, hquestion, hstar, hplus, -, -, -, -, hbrace⟩ := h
  rintro _ _ ⟨⟩
  refine ⟨hquestion, hstar, hplus, fun hc => ?_⟩
  obtain ⟨d, tail', rfl, hd⟩ := hbrace hc
  rintro _ ⟨⟩
  exact hd

variable (body : RegexBody)

/-- The text of a body by each printer opens, and is read as the body by the reader of that
level when what may follow it does. -/
structure ReadsSimple : Prop where
  opens : Opens (printSimple body)
  bracket : ∀ rest, ∀ c ∈ (printSimple body ++ rest).head?, (c == '[') = false
  run : ∀ rest,
    (parseSimple input (parseUnion input)).run (printSimple body ++ rest) = .ok (body, rest)

structure ReadsClass : Prop where
  opens : Opens (printClass body)
  run : ∀ rest,
    (parseCharClass input (parseUnion input)).run (printClass body ++ rest) = .ok (body, rest)

structure ReadsRepeat : Prop where
  opens : Opens (printRepeat body)
  run : ∀ {rest}, AfterRepeat rest →
    (parseRepeat input (parseUnion input)).run (printRepeat body ++ rest) = .ok (body, rest)

structure ReadsConcat : Prop where
  opens : Opens (printConcat body)
  run : ∀ {rest}, AfterConcat rest →
    (parseConcat input (parseUnion input)).run (printConcat body ++ rest) = .ok (body, rest)

structure ReadsUnion : Prop where
  opens : Opens (printUnion body)
  run : ∀ {rest}, AfterUnion rest →
    (parseUnion input).run (printUnion body ++ rest) = .ok (body, rest)

/-- A body is read whichever printer wrote it. -/
structure Written : Prop where
  simple : ReadsSimple input body
  charClass : ReadsClass input body
  repetition : ReadsRepeat input body
  concat : ReadsConcat input body
  union : ReadsUnion input body

variable {body}

/-- `parse_union` calls itself only after a bar or a parenthesis. -/
theorem unionBody_guarded : Reader.Guarded (unionBody input) := by
  intro n m m' h
  have hrepeat : Reader.Below (n + 1) (parseRepeat input m) (parseRepeat input m') := by
    apply Reader.Below.bind
    · apply Reader.Below.take
      · exact fun _ => .refl _ _
      · apply Reader.Below.take
        · exact fun _ => .refl _ _
        · apply Reader.Below.take
          · exact fun _ => h.bind fun _ => .refl _ _
          · exact .refl _ _
    · exact fun _ => .refl _ _
  have hconcat : Reader.Below (n + 1) (parseConcat input m) (parseConcat input m') := by
    apply Reader.Below.bind hrepeat
    intro first
    apply Reader.Below.bind
    · apply Reader.Below.loop
      intro members
      apply Reader.Below.bind (.refl _ _)
      intro tokens
      split
      · exact .refl _ _
      · split
        · exact .refl _ _
        · exact hrepeat.bind fun _ => .refl _ _
    · exact fun _ => .refl _ _
  apply Reader.Below.bind hconcat
  intro left
  apply Reader.Below.take
  · intro _
    apply Reader.Below.bind (.refl _ _)
    intro tokens
    split
    · exact .refl _ _
    · exact h.bind fun _ => .refl _ _
  · exact .refl _ _

theorem parseUnion_eq : parseUnion input = unionBody input (parseUnion input) :=
  Reader.fix_eq (unionBody_guarded input)

/-- What a union reads when no bar follows. -/
theorem ReadsConcat.run_union (h : ReadsConcat input body) {rest : List Char}
    (hrest : AfterUnion rest) :
    (parseUnion input).run (printConcat body ++ rest) = .ok (body, rest) := by
  rw [parseUnion_eq]
  refine (run_bind_ok (h.run hrest.concat)).trans (run_miss fun c hc => ?_)
  rcases hrest c hc with rfl | rfl
  · rfl
  · rfl

theorem ReadsConcat.union (h : ReadsConcat input body) (hlevel : body.level ≠ 0) :
    ReadsUnion input body where
  opens := by
    rw [printUnion_next hlevel]
    exact h.opens
  run hrest := by
    rw [printUnion_next hlevel]
    exact h.run_union input hrest

theorem concatStep_stops {self : Run RegexBody} (members : List RegexBody) {rest : List Char}
    (hrest : AfterConcat rest) :
    (concatStep input self members).run rest = .ok (.inr members, rest) := by
  cases rest with
  | nil => rfl
  | cons c rest =>
    have hclosing : (c = ')' || c = '|' || c = '$') = true := by
      simpa [or_assoc] using hrest c rfl
    show (if (c = ')' || c = '|' || c = '$') = true then pure (.inr members)
      else _ : Run (List RegexBody ⊕ List RegexBody)).run _ = _
    rw [if_pos hclosing]
    rfl

theorem concatStep_goes {self : Run RegexBody} (members : List RegexBody) {text rest : List Char}
    (hopens : Opens text) (hread : (parseRepeat input self).run text = .ok (body, rest)) :
    (concatStep input self members).run text = .ok (.inl (members ++ [body]), rest) := by
  obtain ⟨c, tail, rfl, -, -, -, hclose, hbar, hend, -, -⟩ := hopens
  show (if (c = ')' || c = '|' || c = '$') = true then _
    else parseRepeat input self >>= fun body => pure (.inl (members ++ [body])) :
      Run (List RegexBody ⊕ List RegexBody)).run _ = _
  rw [if_neg (by simp [hclose, hbar, hend])]
  exact run_bind_ok hread

theorem ReadsRepeat.concat (h : ReadsRepeat input body) (hlevel : body.level ≠ 1) :
    ReadsConcat input body where
  opens := by
    rw [printConcat_next hlevel]
    exact h.opens
  run {rest} hrest := by
    rw [printConcat_next hlevel]
    refine (run_bind_ok (h.run hrest.afterRepeat)).trans ?_
    have hloop : (Reader.loop (concatStep input (parseUnion input))
        (concatStep_advances input (parseUnion input)) [body]).run rest = .ok ([body], rest) := by
      rw [Reader.loop_eq]
      exact run_bind_ok (concatStep_stops input [body] hrest)
    exact run_bind_ok hloop

theorem ReadsClass.repetition (h : ReadsClass input body) (hlevel : body.level ≠ 2) :
    ReadsRepeat input body where
  opens := by
    rw [printRepeat_next hlevel]
    exact h.opens
  run hrest := by
    rw [printRepeat_next hlevel]
    exact (run_bind_ok (h.run _)).trans (repeatLoop_stops input hrest)

theorem ReadsSimple.charClass (h : ReadsSimple input body) (hlevel : body.level ≠ 3) :
    ReadsClass input body where
  opens := by
    rw [printClass_next hlevel]
    exact h.opens
  run rest := by
    rw [printClass_next hlevel]
    exact (run_miss (h.bracket rest)).trans (h.run rest)

theorem ReadsUnion.simple (h : ReadsUnion input body) (hlevel : body.level ≠ 4) :
    ReadsSimple input body where
  opens := by
    rw [printSimple_next hlevel]
    exact ⟨'(', _, rfl, by decide, by decide, by decide, by decide, by decide, by decide,
      by decide, fun hc => absurd hc (by decide)⟩
  bracket rest := by
    rw [printSimple_next hlevel]
    rintro _ ⟨⟩
    rfl
  run rest := by
    rw [printSimple_next hlevel, List.cons_append, List.cons_append, List.append_assoc]
    refine (run_miss (by rintro _ ⟨⟩; rfl)).trans ?_
    refine (run_hit rfl _).trans ?_
    have hclose : AfterUnion (')' :: rest) := by
      rintro _ ⟨⟩
      exact .inl rfl
    refine (run_bind_ok (h.run hclose)).trans ?_
    exact run_bind_ok (run_expect input ')' rest)

theorem Written.of_simple (h : ReadsSimple input body) (hlevel : body.level = 4) :
    Written input body := by
  have hclass := h.charClass input (by omega)
  have hrepeat := hclass.repetition input (by omega)
  have hconcat := hrepeat.concat input (by omega)
  exact ⟨h, hclass, hrepeat, hconcat, hconcat.union input (by omega)⟩

theorem Written.of_class (h : ReadsClass input body) (hlevel : body.level = 3) :
    Written input body := by
  have hrepeat := h.repetition input (by omega)
  have hconcat := hrepeat.concat input (by omega)
  have hunion := hconcat.union input (by omega)
  exact ⟨hunion.simple input (by omega), h, hrepeat, hconcat, hunion⟩

theorem Written.of_repeat (h : ReadsRepeat input body) (hlevel : body.level = 2) :
    Written input body := by
  have hconcat := h.concat input (by omega)
  have hunion := hconcat.union input (by omega)
  have hsimple := hunion.simple input (by omega)
  exact ⟨hsimple, hsimple.charClass input (by omega), h, hconcat, hunion⟩

theorem Written.of_concat (h : ReadsConcat input body) (hlevel : body.level = 1) :
    Written input body := by
  have hunion := h.union input (by omega)
  have hsimple := hunion.simple input (by omega)
  have hclass := hsimple.charClass input (by omega)
  exact ⟨hsimple, hclass, hclass.repetition input (by omega), h, hunion⟩

theorem Written.of_union (h : ReadsUnion input body) (hlevel : body.level = 0) :
    Written input body := by
  have hsimple := h.simple input (by omega)
  have hclass := hsimple.charClass input (by omega)
  have hrepeat := hclass.repetition input (by omega)
  exact ⟨hsimple, hclass, hrepeat, hrepeat.concat input (by omega), h⟩

end Levels

section Bodies

variable {body : RegexBody}

theorem opens_of_not_reserved {c : Char} {tail : List Char} (h : c = '\\' ∨ isReserved c = false) :
    Opens (c :: tail) := by
  have hne {d : Char} (hd : isReserved d = true) (hback : d ≠ '\\') : c ≠ d := by
    rintro rfl
    rcases h with rfl | h
    · exact hback rfl
    · rw [h] at hd
      cases hd
  exact ⟨c, tail, rfl, hne rfl (by decide), hne rfl (by decide), hne rfl (by decide),
    hne rfl (by decide), hne rfl (by decide), hne rfl (by decide), hne rfl (by decide),
    fun hc => absurd hc (hne rfl (by decide))⟩

theorem readsSimple_char (c : Char) : ReadsSimple input (.char c) where
  opens := by
    rw [printSimple]
    obtain ⟨d, tail, htext, hd⟩ := printCharacter_head c false []
    rw [List.append_nil] at htext
    rw [htext]
    exact opens_of_not_reserved hd
  bracket rest := by
    rw [printSimple]
    exact printCharacter_misses rfl (by decide) rest
  run rest := by
    rw [printSimple]
    refine (run_miss (printCharacter_misses rfl (by decide) rest)).trans ?_
    refine (run_miss (printCharacter_misses rfl (by decide) rest)).trans ?_
    refine (run_miss (printCharacter_misses rfl (by decide) rest)).trans ?_
    exact run_bind_ok (run_parseCharacter input c false rest)

theorem readsSimple_anyChar : ReadsSimple input .anyChar where
  opens := by
    rw [printSimple]
    exact ⟨'.', [], rfl, by decide, by decide, by decide, by decide, by decide, by decide,
      by decide, fun hc => absurd hc (by decide)⟩
  bracket rest := by
    rw [printSimple]
    rintro _ ⟨⟩
    rfl
  run rest := by
    rw [printSimple]
    exact run_hit rfl rest

/-- A lexical identifier starts with no digit and holds no brace. -/
theorem validIdentifier_chars {name : List Char} (h : validIdentifier name = true) :
    (∃ c tail, name = c :: tail ∧ c.isDigit = false) ∧ ∀ c ∈ name, c ≠ '\x7d' := by
  have hupper {c : Char} (hc : c.isUpper = true) : c.isDigit = false := by
    have hrange : 'A'.val ≤ c.val ∧ c.val ≤ 'Z'.val := of_decide_eq_true hc
    rw [Char.isDigit, Bool.and_eq_false_iff, decide_eq_false_iff_not, decide_eq_false_iff_not]
    right
    intro hle
    exact absurd (UInt32.le_trans hrange.1 hle) (by decide)
  have hname {first : Char} {rest : List Char} (hfirst : first.isUpper = true)
      (hrest : rest.all Char.isAlphanum = true) : ∀ c ∈ first :: rest, c ≠ '\x7d' := by
    rintro c hmem rfl
    rcases List.mem_cons.mp hmem with rfl | hmem
    · cases hfirst
    · cases List.all_eq_true.mp hrest _ hmem
  unfold validIdentifier at h
  split at h
  · cases h
  · rename_i first rest heq
    rw [Bool.and_eq_true] at h
    split at heq
    · rename_i hhash
      cases name with
      | nil => cases hhash
      | cons c tail =>
        cases hhash
        have htail : tail = first :: rest := heq
        refine ⟨⟨'#', tail, rfl, rfl⟩, ?_⟩
        rw [List.forall_mem_cons, htail]
        exact ⟨by decide, hname h.1 h.2⟩
    · rw [heq]
      exact ⟨⟨first, rest, rfl, hupper h.1⟩, hname h.1 h.2⟩

theorem readsSimple_named {name : String} (h : validIdentifier name.toList = true) :
    ReadsSimple input (.named name) where
  opens := by
    obtain ⟨⟨c, tail, hname, hdigit⟩, -⟩ := validIdentifier_chars h
    rw [printSimple, hname]
    exact ⟨'\x7b', _, rfl, by decide, by decide, by decide, by decide, by decide, by decide,
      by decide, fun _ => ⟨c, _, rfl, hdigit⟩⟩
  bracket rest := by
    rw [printSimple]
    rintro _ ⟨⟩
    rfl
  run rest := by
    obtain ⟨-, hbrace⟩ := validIdentifier_chars h
    rw [printSimple, List.cons_append, List.cons_append, List.append_assoc]
    refine (run_miss (by rintro _ ⟨⟩; rfl)).trans ?_
    refine (run_miss (by rintro _ ⟨⟩; rfl)).trans ?_
    refine (run_hit rfl _).trans ?_
    have htake : (Reader.takeWhile (· ≠ '\x7d') : Run (List Char)).run (name.toList ++ '\x7d' :: rest)
        = .ok (name.toList, '\x7d' :: rest) := by
      rw [Reader.run_takeWhile, List.takeWhile_append_of_pos fun c hc => decide_eq_true (hbrace c hc),
        List.dropWhile_append_of_pos fun c hc => decide_eq_true (hbrace c hc)]
      simp
    refine (run_bind_ok htake).trans ?_
    refine (run_hit rfl _).trans ?_
    dsimp only
    rw [if_pos h, String.ofList_toList]
    rfl

theorem readsClass {negated : Bool} {members : List CharClass} (h : members ≠ []) :
    ReadsClass input (.charClass negated members) where
  opens := by
    rw [printClass]
    exact ⟨'[', _, rfl, by decide, by decide, by decide, by decide, by decide, by decide,
      by decide, fun hc => absurd hc (by decide)⟩
  run rest := by
    have hnegated : (Reader.take (· == '^') : Run (Option Char)).run
        ((if negated then ['^'] else []) ++ (members.flatMap printClassMember ++ ']' :: rest))
        = .ok (if negated then some '^' else none,
            members.flatMap printClassMember ++ ']' :: rest) := by
      cases negated with
      | true => rfl
      | false =>
        obtain ⟨member, members, rfl⟩ := List.exists_cons_of_ne_nil h
        obtain ⟨c, chars, htext⟩ := printClassMember_head member
          (members.flatMap printClassMember ++ ']' :: rest)
        obtain ⟨d, tail, hchars, -⟩ := printCharacter_head c true chars
        have hmiss : ∀ e ∈ (printCharacter c true ++ chars).head?, (e == '^') = false :=
          printCharacter_misses rfl (by decide) chars
        rw [if_neg Bool.false_ne_true, if_neg Bool.false_ne_true, List.nil_append,
          List.flatMap_cons, List.append_assoc, htext]
        rw [hchars] at hmiss ⊢
        rw [Reader.run_take_cons, hmiss d rfl]
        rfl
    rw [printClass]
    simp only [List.cons_append, List.append_assoc, List.nil_append]
    refine (run_hit rfl _).trans ?_
    refine (run_bind_ok hnegated).trans ?_
    refine (run_bind_ok (run_classLoop input [] members rest)).trans ?_
    rw [List.nil_append, if_neg (by simpa using h)]
    cases negated with
    | true => rfl
    | false => rfl

/-- The members of a concatenation are read up to what ends it. -/
theorem run_concatLoop (read : List RegexBody) {members : List RegexBody}
    (hmembers : ∀ b ∈ members, ReadsRepeat input b) {rest : List Char} (hrest : AfterConcat rest) :
    (Reader.loop (concatStep input (parseUnion input))
      (concatStep_advances input (parseUnion input)) read).run
      (members.flatMap printRepeat ++ rest) = .ok (read ++ members, rest) := by
  induction members generalizing read with
  | nil =>
    rw [Reader.loop_eq, List.append_nil]
    exact run_bind_ok (concatStep_stops input read hrest)
  | cons b members ih =>
    rw [List.forall_mem_cons] at hmembers
    rw [Reader.loop_eq, List.flatMap_cons, List.append_assoc]
    have hafter : AfterRepeat (members.flatMap printRepeat ++ rest) := by
      cases members with
      | nil => exact hrest.afterRepeat
      | cons next members =>
        rw [List.flatMap_cons, List.append_assoc]
        exact ((hmembers.2 next List.mem_cons_self).opens.append _).afterRepeat
    have hstep := concatStep_goes input read (hmembers.1.opens.append _) (hmembers.1.run hafter)
    refine (run_bind_ok hstep).trans ?_
    show (Reader.loop (concatStep input (parseUnion input)) _ (read ++ [b])).run _ = _
    rw [ih _ hmembers.2, List.append_assoc]
    rfl

theorem readsConcat {members : List RegexBody} (hlength : 2 ≤ members.length)
    (hmembers : ∀ b ∈ members, ReadsRepeat input b) : ReadsConcat input (.concat members) := by
  obtain ⟨first, second, members, rfl⟩ : ∃ first second rest, members = first :: second :: rest := by
    rcases members with _ | ⟨first, _ | ⟨second, rest⟩⟩
    · exact absurd hlength (by decide)
    · exact absurd hlength (by simp)
    · exact ⟨first, second, rest, rfl⟩
  rw [List.forall_mem_cons] at hmembers
  constructor
  · rw [printConcat, List.flatMap_cons]
    exact hmembers.1.opens.append _
  · intro rest hrest
    rw [printConcat, List.flatMap_cons, List.append_assoc]
    have hafter : AfterRepeat ((second :: members).flatMap printRepeat ++ rest) := by
      rw [List.flatMap_cons, List.append_assoc]
      exact ((hmembers.2 second List.mem_cons_self).opens.append _).afterRepeat
    refine (run_bind_ok (hmembers.1.run hafter)).trans ?_
    exact run_bind_ok (run_concatLoop input [first] hmembers.2 hrest)

theorem readsUnion {left right : RegexBody} (hleft : ReadsConcat input left)
    (hright : ReadsConcat input right) : ReadsUnion input (.union left right) where
  opens := by
    rw [printUnion]
    exact hleft.opens.append _
  run {rest} hrest := by
    rw [printUnion, parseUnion_eq, List.append_assoc, List.cons_append]
    have hbar : AfterConcat ('|' :: (printConcat right ++ rest)) := by
      rintro _ ⟨⟩
      exact .inr (.inl rfl)
    refine (run_bind_ok (hleft.run hbar)).trans ?_
    refine (run_hit rfl _).trans ?_
    have hread := hright.run_union input hrest
    obtain ⟨c, tail, htext, -⟩ := hright.opens.append rest
    rw [htext] at hread ⊢
    exact run_bind_ok hread

/-- A repetition is read when its postfix is. -/
theorem readsRepeat {repeated : RegexBody} {suffix : List Char} (hbody : Written input body)
    (htext : printRepeat repeated = printClass body ++ suffix)
    (hstep : ∀ rest, (repeatStep input body).run (suffix ++ rest) = .ok (.inl repeated, rest)) :
    ReadsRepeat input repeated where
  opens := by
    rw [htext]
    exact hbody.charClass.opens.append _
  run {rest} hrest := by
    rw [htext, List.append_assoc]
    exact run_repeat input (hbody.charClass.run _) (hstep rest) hrest

/-- Every valid body is read whichever printer wrote it. -/
theorem written (h : body.Valid) : Written input body := by
  induction h with
  | char c => exact .of_simple input (readsSimple_char input c) rfl
  | anyChar => exact .of_simple input (readsSimple_anyChar input) rfl
  | named h => exact .of_simple input (readsSimple_named input h) rfl
  | charClass negated h => exact .of_class input (readsClass input h) rfl
  | union _ _ hleft hright => exact .of_union input (readsUnion input hleft.concat hright.concat) rfl
  | concat hlength _ ih =>
    exact .of_concat input (readsConcat input hlength fun b hb => (ih b hb).repetition) rfl
  | zeroOrMore _ ih | zeroOrOne _ ih | oneOrMore _ ih =>
    apply Written.of_repeat input _ rfl
    refine readsRepeat input ih (by rw [printRepeat]) fun rest => rfl
  | @exactly body count _ hcount ih =>
    apply Written.of_repeat input _ rfl
    refine readsRepeat input ih (by rw [printRepeat, List.append_assoc]) fun rest => ?_
    rw [List.cons_append, List.cons_append, List.append_assoc]
    exact repeatStep_bounds input (run_exactly input hcount rest)
  | @atLeast body count _ hcount ih =>
    apply Written.of_repeat input _ rfl
    refine readsRepeat input ih (by rw [printRepeat, List.append_assoc]) fun rest => ?_
    rw [List.cons_append, List.cons_append, List.append_assoc]
    exact repeatStep_bounds input (run_atLeast input hcount rest)
  | @range body least most _ hleast hmost ih =>
    apply Written.of_repeat input _ rfl
    refine readsRepeat input ih (by rw [printRepeat, List.append_assoc, List.append_assoc])
      fun rest => ?_
    simp only [List.cons_append, List.append_assoc, List.nil_append]
    exact repeatStep_bounds input (run_range input hleast hmost rest)

end Bodies

section Regexes

/-- A valid expression is read from its canonical text. -/
theorem run_parseRegex {regex : Regex} (h : regex.body.Valid) :
    (parseRegex input).run regex.toCanonicalString = .ok (regex, []) := by
  obtain ⟨startLine, body, endLine⟩ := regex
  have hunion := (written input h).union
  let anchor : List Char := if endLine then ['$'] else []
  have hanchor : AfterUnion anchor := by
    cases endLine with
    | true => rintro _ ⟨⟩; exact .inr rfl
    | false => rintro _ ⟨⟩
  have hstart : (Reader.take (· == '^') : Run (Option Char)).run
      ((if startLine then ['^'] else []) ++ (printUnion body ++ anchor))
      = .ok (if startLine then some '^' else none, printUnion body ++ anchor) := by
    cases startLine with
    | true => rfl
    | false =>
      obtain ⟨c, tail, htext, -, -, -, -, -, -, hcaret, -⟩ := hunion.opens.append anchor
      rw [if_neg Bool.false_ne_true, if_neg Bool.false_ne_true, List.nil_append, htext,
        Reader.run_take_cons, if_neg]
      simpa using hcaret
  rw [toCanonicalString, List.append_assoc]
  refine (run_bind_ok hstart).trans ?_
  refine (run_bind_ok (hunion.run hanchor)).trans ?_
  cases startLine with
  | true => cases endLine <;> rfl
  | false => cases endLine <;> rfl

end Regexes

end Regex.Parser

namespace Regex

open KRust.Lib

theorem parse_eq_run {input : String} (h : input ∉ ["", "^", "$", "^$"]) :
    parse input = Prod.fst <$> (Parser.parseRegex input).run input.toList := by
  unfold parse
  split
  · exact absurd (by decide) h
  · exact absurd (by decide) h
  · exact absurd (by decide) h
  · exact absurd (by decide) h
  · rfl

/-- What is parsed is valid. -/
theorem valid_of_parse {input : String} {regex : Regex} (h : parse input = .ok regex) :
    regex.body.Valid := by
  have hinput : input ∉ ["", "^", "$", "^$"] := by
    intro hmem
    simp only [List.mem_cons, List.not_mem_nil, or_false] at hmem
    rcases hmem with rfl | rfl | rfl | rfl
    · cases h
    · cases h
    · cases h
    · cases h
  rw [parse_eq_run hinput] at h
  cases hrun : (Parser.parseRegex input).run input.toList with
  | error e => rw [hrun] at h; cases h
  | ok value =>
    obtain ⟨parsed, rest⟩ := value
    rw [hrun] at h
    cases h
    exact (Parser.parseRegex_gives input).of_run (fun _ _ => trivial) hrun

/-- The canonical text of a valid expression is more than its anchors. -/
theorem canonical_not_anchors {regex : Regex} (h : regex.body.Valid) :
    String.ofList regex.toCanonicalString ∉ ["", "^", "$", "^$"] := by
  intro hmem
  have htext : regex.toCanonicalString ∈ [[], ['^'], ['$'], ['^', '$']] := by
    have hlist := List.mem_map_of_mem (f := String.toList) hmem
    rwa [String.toList_ofList] at hlist
  obtain ⟨startLine, body, endLine⟩ := regex
  obtain ⟨c, tail, hbody, -, -, -, -, -, hend, hstart, -⟩ := (Parser.written "" h).union.opens
  rw [toCanonicalString, hbody] at htext
  cases startLine <;> cases endLine <;> simp_all

/-- The canonical text of an expression that was parsed is parsed as the expression. -/
theorem parse_toCanonicalString {input : String} {regex : Regex} (h : parse input = .ok regex) :
    parse (String.ofList regex.toCanonicalString) = .ok regex := by
  have hvalid := valid_of_parse h
  rw [parse_eq_run (canonical_not_anchors hvalid), String.toList_ofList,
    Parser.run_parseRegex _ hvalid]
  rfl

theorem parse_toCanonicalString_anchored :
    ∃ regex, parse "^a|(b|\\n\x7b02,3\x7d)[^a-c\\]]*+\x7bName\x7d\\.$" = .ok regex ∧
      parse (String.ofList regex.toCanonicalString) = .ok regex := by
  have hparse : (parse "^a|(b|\\n\x7b02,3\x7d)[^a-c\\]]*+\x7bName\x7d\\.$").toOption.isSome = true := by
    decide +kernel
  cases h : parse "^a|(b|\\n\x7b02,3\x7d)[^a-c\\]]*+\x7bName\x7d\\.$" with
  | error e => rw [h] at hparse; cases hparse
  | ok regex => exact ⟨regex, rfl, parse_toCanonicalString h⟩

end Regex

end KRust
