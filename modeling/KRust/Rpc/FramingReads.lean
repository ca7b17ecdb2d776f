import KRust.Rpc.FramingResume
import KRust.Rpc.FramingGrammar

/-!
Where the bytes go on with a value of the grammar, the scanner reads the value and records its
members on the way.
-/

set_option linter.unusedSectionVars false

namespace KRust.Rpc.Framing

section Record

variable (names : Names)

/-- What a label leaves in the members, at the depth of its value. -/
def Label.record (depth : Nat) : Label → MemberScan → MemberScan
  | .element _, m => m
  | .member _ name _ _, m => m.key names depth (byte '"' :: name)

mutual

/-- What a value at the offset leaves in the members. -/
def Tree.record (depth pos : Nat) : Tree → MemberScan → MemberScan
  | .node isObject label first rest, m =>
    let start := pos + 1 + label.text.length
    let m := label.record names (depth + 1) (m.valueStarts depth pos (opening isObject))
    let m := rest.record isObject (depth + 1) (start + first.text.length)
      (first.record (depth + 1) start m)
    m.valueEnds depth (pos + (Tree.node isObject label first rest).text.length)
  | t, m => (m.valueStarts depth pos t.firstByte).valueEnds depth (pos + t.text.length)

def Rest.record (isObject : Bool) (depth pos : Nat) : Rest → MemberScan → MemberScan
  | .close _, m => m
  | .comma blank label item rest, m =>
    let start := pos + blank.length + 1 + label.text.length
    rest.record isObject depth (start + item.text.length)
      (item.record depth start (label.record names depth m))

end

end Record

namespace Scanner

variable (names : Names) {bytes : List UInt8} {s t : Scanner} {w rest : List UInt8} {b : UInt8}

section Places

/-- What is left of the bytes. -/
def At (bytes : List UInt8) (s : Scanner) (rest : List UInt8) : Prop := bytes.drop s.pos = rest

def advance (s : Scanner) (n : Nat) : Scanner := { s with pos := s.pos + n }

/-- A value has ended after `n` more bytes. -/
def ended (s : Scanner) (n : Nat) : Scanner := (s.advance n).valueDone

theorem advance_advance (s : Scanner) (m n : Nat) :
    (s.advance m).advance n = s.advance (m + n) := by
  rw [advance, advance, advance, Nat.add_assoc]

theorem advance_move (s : Scanner) (state : State) (n : Nat) :
    (s.move state).advance n = (s.advance (n + 1)).goto state := by
  rw [advance, advance, Nat.add_comm n 1, ← Nat.add_assoc]
  rfl

theorem move_eq (s : Scanner) (state : State) : s.move state = (s.advance 1).goto state := rfl

theorem advance_goto (s : Scanner) (state : State) (n : Nat) :
    (s.goto state).advance n = (s.advance n).goto state := rfl

@[simp] theorem ended_goto (s : Scanner) (state : State) (n : Nat) :
    (s.goto state).ended n = s.ended n := rfl

@[simp] theorem ended_move (s : Scanner) (state : State) (n : Nat) :
    (s.move state).ended n = s.ended (n + 1) := by
  rw [ended, advance_move]
  rfl

@[simp] theorem ended_advance (s : Scanner) (m n : Nat) :
    (s.advance m).ended n = s.ended (m + n) := by
  rw [ended, ended, advance_advance]

@[simp] theorem advance_stack (s : Scanner) (n : Nat) : (s.advance n).stack = s.stack := rfl

@[simp] theorem advance_members (s : Scanner) (n : Nat) : (s.advance n).members = s.members := rfl

theorem At.advance (h : At bytes s (w ++ rest)) : At bytes (s.advance w.length) rest := by
  rw [At] at h ⊢
  show bytes.drop (s.pos + w.length) = rest
  rw [← List.drop_drop, h, List.drop_left]

theorem At.move (state : State) (h : At bytes s (b :: rest)) : At bytes (s.move state) rest :=
  At.advance (w := [b]) h

theorem At.goto (state : State) (h : At bytes s rest) : At bytes (s.goto state) rest := h

theorem At.next (h : At bytes s rest) : bytes[s.pos]? = rest.head? := by
  rw [← h, List.head?_drop]

/-- A turn that goes on, in a stream that no byte follows. -/
theorem turn (hat : At bytes s rest) (h : step names bytes rest.head? s = (t, none)) :
    scan names bytes true s = scan names bytes true t := by
  rw [← hat.next] at h
  exact scan_next names (fun _ => .inl rfl) h

/-- A loop on bytes that leave the scanner in its state. -/
theorem turns {p : UInt8 → Bool}
    (hloop : ∀ b u, p b → u.state = s.state → u.stack = s.stack →
      step names bytes (some b) u = (u.advance 1, none))
    (hw : w.all p) (hat : At bytes s (w ++ rest)) :
    scan names bytes true s = scan names bytes true (s.advance w.length) := by
  induction w generalizing s with
  | nil => rfl
  | cons b w ih =>
    obtain ⟨hb, hw⟩ := (Bool.and_eq_true _ _).mp (List.all_cons.symm.trans hw)
    rw [turn names hat (hloop b s hb rfl rfl), ih (s := s.advance 1) hloop hw (hat.advance (w := [b])),
      advance_advance, List.length_cons, Nat.add_comm]

/-- The states that skip blanks. -/
def SkipsBlanks (s : Scanner) : Prop :=
  match s.state with
  | .start | .value | .keyQuote | .colon => True
  | .inner _ => s.stack ≠ []
  | _ => False

theorem step_blank (hs : SkipsBlanks s) (hb : isWhitespace b) :
    step names bytes (some b) s = (s.advance 1, none) := by
  have hmove {state : State} (hstate : s.state = state) : s.move state = s.advance 1 := by
    rw [← hstate]
    rfl
  unfold SkipsBlanks at hs
  rw [step.eq_def]
  split at hs
  case h_5 =>
    obtain ⟨opened, stack, hstack⟩ := List.exists_cons_of_ne_nil hs
    rw [‹s.state = _›, hstack]
    dsimp only
    rw [if_pos hb, hmove ‹_›]
  case h_6 => cases hs
  all_goals
    rw [‹s.state = _›]
    dsimp only
    rw [if_pos hb, hmove ‹_›]

theorem blanks (hs : SkipsBlanks s) (hw : w.all isWhitespace) (hat : At bytes s (w ++ rest)) :
    scan names bytes true s = scan names bytes true (s.advance w.length) := by
  apply turns names _ hw hat
  intro b u hb hstate hstack
  apply step_blank names _ hb
  unfold SkipsBlanks at hs ⊢
  rw [hstate, hstack]
  exact hs

end Places

section Scalars

theorem mayFollow_scalar (h : mayFollow b) :
    isDigit b = false ∧ b ≠ byte '.' ∧ b ≠ byte 'e' ∧ b ≠ byte 'E' := by
  simp only [mayFollow, isWhitespace, Bool.or_eq_true, decide_eq_true_eq] at h
  rcases h with (((((((((h | h) | h) | h) | h) | h) | h) | h) | h) | h) | h <;> subst h <;> decide

theorem digits_loop {state : State}
    (hstate : s.state = state)
    (hloop : state = .integerDigits ∨ state = .fractionDigits ∨ state = .exponentDigits)
    (hw : w.all isDigit) (hat : At bytes s (w ++ rest)) :
    scan names bytes true s = scan names bytes true (s.advance w.length) := by
  apply turns names _ hw hat
  intro b u hb hu _
  rw [step.eq_def, hu, hstate]
  have hmove {state : State} (h : u.state = state) : u.move state = u.advance 1 := by
    rw [← h]
    rfl
  rcases hloop with rfl | rfl | rfl <;>
    · dsimp only
      rw [if_pos hb, hmove (hu.trans hstate)]

/-- After its digits an exponent ends. -/
theorem exponentDigits_ended (hstate : s.state = .exponentDigits) (hw : w.all isDigit)
    (hrest : Follows rest) (hat : At bytes s (w ++ rest)) :
    scan names bytes true s = scan names bytes true (s.ended w.length) := by
  rw [digits_loop names hstate (.inr (.inr rfl)) hw hat]
  apply turn names hat.advance
  rw [step.eq_def, show (s.advance w.length).state = .exponentDigits from hstate]
  cases rest with
  | nil => rfl
  | cons b rest =>
    dsimp only [List.head?_cons]
    rw [if_neg (by rw [(mayFollow_scalar (hrest b rfl)).1]; exact Bool.false_ne_true)]
    rfl

theorem exponentFirst_ended (hstate : s.state = .exponentFirst) (hw : Digits w)
    (hrest : Follows rest) (hat : At bytes s (w ++ rest)) :
    scan names bytes true s = scan names bytes true (s.ended w.length) := by
  obtain ⟨hne, hdigits⟩ := hw
  obtain ⟨b, w, rfl⟩ := List.exists_cons_of_ne_nil hne
  obtain ⟨hb, hw⟩ := (Bool.and_eq_true _ _).mp (List.all_cons.symm.trans hdigits)
  have hturn : step names bytes (some b) s = (s.move .exponentDigits, none) := by
    rw [step.eq_def, hstate]
    dsimp only
    rw [if_pos hb]
  rw [turn names hat hturn, exponentDigits_ended names rfl hw hrest (hat.move _), ended_move]
  rfl

theorem exponentSign_ended {sign digits : List UInt8} (hstate : s.state = .exponentSign)
    (hsign : Sign sign) (hdigits : Digits digits) (hrest : Follows rest)
    (hat : At bytes s (sign ++ digits ++ rest)) :
    scan names bytes true s = scan names bytes true (s.ended (sign ++ digits).length) := by
  have hread (b : UInt8) (hb : b = byte '+' || b = byte '-')
      (hat : At bytes s (b :: (digits ++ rest))) :
      scan names bytes true s = scan names bytes true (s.ended (digits.length + 1)) := by
    have hturn : step names bytes (some b) s = (s.move .exponentFirst, none) := by
      rw [step.eq_def, hstate]
      dsimp only
      rw [if_pos hb]
    rw [turn names hat hturn, exponentFirst_ended names rfl hdigits hrest (hat.move _), ended_move]
  rcases hsign with rfl | rfl | rfl
  · obtain ⟨hne, hall⟩ := id hdigits
    obtain ⟨b, w, rfl⟩ := List.exists_cons_of_ne_nil hne
    have hb := ((Bool.and_eq_true _ _).mp (List.all_cons.symm.trans hall)).1
    have hturn : step names bytes (some b) s = (s.goto .exponentFirst, none) := by
      rw [step.eq_def, hstate]
      dsimp only
      rw [if_neg]
      simp only [Bool.or_eq_true, decide_eq_true_eq]
      rintro (rfl | rfl) <;> revert hb <;> decide
    rw [turn names hat hturn, exponentFirst_ended names rfl hdigits hrest (hat.goto _), ended_goto]
    rfl
  · exact hread _ rfl hat
  · exact hread _ rfl hat

/-- The exponent of a number, or its end, after its digits. -/
theorem exponent_ended (hstate : s.state = .numberTail ∨ s.state = .fractionTail)
    (hw : Exponent w) (hrest : Follows rest) (hat : At bytes s (w ++ rest)) :
    scan names bytes true s = scan names bytes true (s.ended w.length) := by
  rcases hw with rfl | ⟨e, sign, digits, rfl, he, hsign, hdigits⟩
  · apply turn names hat
    cases rest with
    | nil => rcases hstate with hstate | hstate <;> rw [step.eq_def, hstate] <;> rfl
    | cons b rest =>
      obtain ⟨-, hdot, he, hE⟩ := mayFollow_scalar (hrest b rfl)
      have hexp : ¬(b = byte 'e' || b = byte 'E') := by
        simp only [Bool.or_eq_true, decide_eq_true_eq]
        rintro (h | h)
        · exact he h
        · exact hE h
      rcases hstate with hstate | hstate
      all_goals
        rw [step.eq_def, hstate]
        dsimp only [List.nil_append, List.head?_cons]
      · rw [if_neg hdot, if_neg hexp]
        rfl
      · rw [if_neg hexp]
        rfl
  · have hturn : step names bytes (some e) s = (s.move .exponentSign, none) := by
      have he' : e = byte 'e' || e = byte 'E' := by
        rw [Bool.or_eq_true, decide_eq_true_eq, decide_eq_true_eq]
        exact he
      have hdot : e ≠ byte '.' := by rcases he with rfl | rfl <;> decide
      rw [step.eq_def]
      rcases hstate with hstate | hstate <;> rw [hstate] <;> dsimp only
      · rw [if_neg hdot, if_pos he']
      · rw [if_pos he']
    rw [turn names hat hturn, exponentSign_ended names rfl hsign hdigits hrest
      ((hat.move _)), ended_move]
    rfl

theorem fractionDigits_ended {digits exponent : List UInt8} (hstate : s.state = .fractionDigits)
    (hdigits : digits.all isDigit) (hexponent : Exponent exponent) (hrest : Follows rest)
    (hat : At bytes s (digits ++ (exponent ++ rest))) :
    scan names bytes true s
      = scan names bytes true (s.ended (digits.length + exponent.length)) := by
  rw [digits_loop names hstate (.inr (.inl rfl)) hdigits hat]
  have hturn : step names bytes (exponent ++ rest).head? (s.advance digits.length)
      = ((s.advance digits.length).goto .fractionTail, none) := by
    have hnot : ∀ b ∈ (exponent ++ rest).head?, isDigit b = false := by
      intro b hb
      rcases hexponent with rfl | ⟨e, _, _, rfl, he, -⟩
      · exact (mayFollow_scalar (hrest b hb)).1
      · cases hb
        rcases he with rfl | rfl <;> decide
    rw [step.eq_def, show (s.advance digits.length).state = .fractionDigits from hstate]
    cases h : (exponent ++ rest).head? with
    | none => rfl
    | some b =>
      dsimp only
      rw [if_neg (by rw [hnot b h]; exact Bool.false_ne_true)]
  rw [turn names hat.advance hturn, exponent_ended names (.inr rfl) hexponent hrest (hat.advance.goto _),
    ended_goto, ended_advance]

/-- The fraction and the exponent of a number. -/
theorem numberTail_ended {fraction exponent : List UInt8} (hstate : s.state = .numberTail)
    (hfraction : Fraction fraction) (hexponent : Exponent exponent) (hrest : Follows rest)
    (hat : At bytes s (fraction ++ (exponent ++ rest))) :
    scan names bytes true s
      = scan names bytes true (s.ended (fraction.length + exponent.length)) := by
  rcases hfraction with rfl | ⟨digits, rfl, hne, hdigits⟩
  · rw [exponent_ended names (.inl hstate) hexponent hrest hat, List.length_nil, Nat.zero_add]
  · obtain ⟨b, digits, rfl⟩ := List.exists_cons_of_ne_nil hne
    obtain ⟨hb, hdigits⟩ := (Bool.and_eq_true _ _).mp (List.all_cons.symm.trans hdigits)
    have hdot : step names bytes (some (byte '.')) s = (s.move .fractionFirst, none) := by
      rw [step.eq_def, hstate]
      dsimp only
      rw [if_pos rfl]
    have hdigit : step names bytes (some b) (s.move .fractionFirst)
        = ((s.move .fractionFirst).move .fractionDigits, none) := by
      show (if isDigit b then _ else _) = _
      rw [if_pos hb]
    have hat' : At bytes (s.move .fractionFirst) (b :: (digits ++ (exponent ++ rest))) :=
      hat.move _
    rw [turn names hat hdot, turn names hat' hdigit,
      fractionDigits_ended names rfl hdigits hexponent hrest (hat'.move _), ended_move, ended_move]
    congr 2
    simp only [List.length_cons]
    omega

/-- The head of what comes after the integer part of a number is not a digit. -/
theorem tail_not_digit {fraction exponent : List UInt8} (hfraction : Fraction fraction)
    (hexponent : Exponent exponent) (hrest : Follows rest) :
    ∀ b ∈ (fraction ++ (exponent ++ rest)).head?, isDigit b = false := by
  intro b hb
  rcases hfraction with rfl | ⟨digits, rfl, -⟩
  · rcases hexponent with rfl | ⟨e, _, _, rfl, he, -⟩
    · exact (mayFollow_scalar (hrest b hb)).1
    · cases hb
      rcases he with rfl | rfl <;> decide
  · cases hb
    decide

theorem unsigned_ended (hstate : s.state = .integerFirst) (hw : Unsigned w)
    (hrest : Follows rest) (hat : At bytes s (w ++ rest)) :
    scan names bytes true s = scan names bytes true (s.ended w.length) := by
  obtain ⟨integer, fraction, exponent, rfl, hinteger, hfraction, hexponent⟩ := hw
  rw [List.append_assoc, List.append_assoc] at hat
  have hnot := tail_not_digit hfraction hexponent hrest
  have hlength : (integer ++ (fraction ++ exponent)).length
      = integer.length + (fraction.length + exponent.length) := by
    rw [List.length_append, List.length_append]
  -- What is left after the integer part, in either of its states.
  have htail {u : Scanner} (hu : u.state = .integerZero ∨ u.state = .integerDigits)
      (hat : At bytes u (fraction ++ (exponent ++ rest))) :
      scan names bytes true u
        = scan names bytes true (u.ended (fraction.length + exponent.length)) := by
    have hturn : step names bytes (fraction ++ (exponent ++ rest)).head? u
        = (u.goto .numberTail, none) := by
      rw [step.eq_def]
      cases h : (fraction ++ (exponent ++ rest)).head? with
      | none => rcases hu with hu | hu <;> rw [hu]
      | some b =>
        rcases hu with hu | hu <;> rw [hu] <;> dsimp only <;>
          rw [if_neg (by rw [hnot b h]; exact Bool.false_ne_true)]
    rw [turn names hat hturn, numberTail_ended names rfl hfraction hexponent hrest (hat.goto _), ended_goto]
  rcases hinteger with rfl | ⟨⟨hne, hdigits⟩, hzero⟩
  · have hturn : step names bytes (some (byte '0')) s = (s.move .integerZero, none) := by
      rw [step.eq_def, hstate]
      rfl
    rw [turn names hat hturn, htail (.inl rfl) (hat.move _), ended_move, hlength]
    congr 2
    exact Nat.add_comm _ _
  · obtain ⟨b, digits, rfl⟩ := List.exists_cons_of_ne_nil hne
    obtain ⟨hb, hdigits⟩ := (Bool.and_eq_true _ _).mp (List.all_cons.symm.trans hdigits)
    have hturn : step names bytes (some b) s = (s.move .integerDigits, none) := by
      rw [step.eq_def, hstate]
      dsimp only
      rw [if_neg (fun h => hzero (congrArg some h)), if_pos hb]
    have hat' : At bytes (s.move .integerDigits) (digits ++ (fraction ++ (exponent ++ rest))) :=
      hat.move _
    rw [turn names hat hturn, digits_loop names rfl (.inl rfl) hdigits hat',
      htail (.inr rfl) hat'.advance, ended_advance, ended_move, hlength]
    congr 2
    rw [List.length_cons]
    omega

/-- The rest of a literal. -/
theorem literal_ended (hstate : s.state = .literal w) (hne : w ≠ [])
    (hat : At bytes s (w ++ rest)) :
    scan names bytes true s = scan names bytes true (s.ended w.length) := by
  induction w generalizing s with
  | nil => exact absurd rfl hne
  | cons b w ih =>
    cases w with
    | nil =>
      apply turn names hat
      rw [step.eq_def, hstate]
      exact if_pos rfl
    | cons c w =>
      have hturn : step names bytes (some b) s = (s.move (.literal (c :: w)), none) := by
        rw [step.eq_def, hstate]
        exact if_pos rfl
      rw [turn names hat hturn, ih rfl (List.cons_ne_nil c w) (hat.move _), ended_move]
      rfl

end Scalars

section Strings

@[simp] theorem stringDone_goto (state : State) (role : Role) :
    (s.goto state).stringDone names role bytes = s.stringDone names role bytes := by
  cases role with
  | value => rfl
  | key => rfl

theorem plain_not_stops (hquote : b ≠ byte '"') (hescape : b ≠ byte '\\') (hcontrol : ¬b < 0x20) :
    stopsString b = false := by
  simp only [stopsString, decide_eq_false hquote, decide_eq_false hescape,
    decide_eq_false hcontrol, Bool.or_false]

/-- An escape of one byte, or the start of one of four digits. -/
theorem turn_escape {role : Role} (hstate : s.state = .string role)
    (hat : At bytes s (byte '\\' :: rest)) :
    scan names bytes true s = scan names bytes true (s.move (.escape role)) := by
  apply turn names hat
  have hfind : (bytes.drop s.pos).findIdx? stopsString = some 0 := by
    rw [hat]
    rfl
  rw [step.eq_def, hstate]
  dsimp only [List.head?_cons]
  rw [skipString, hfind, hat]
  rfl

theorem turn_hex {role : Role} {digit : Nat} (hstate : s.state = .hex role digit)
    (hdigit : digit < 3) (hat : At bytes s (b :: rest)) :
    scan names bytes true s = scan names bytes true (s.move (.hex role (digit + 1))) := by
  apply turn names hat
  rw [step.eq_def, hstate]
  exact if_pos hdigit

theorem slice_of_at {n : Nat} (hat : At bytes s (w ++ rest)) (hw : w.length = n) :
    slice bytes (s.pos, s.pos + n) = w := by
  rw [slice, hat, Nat.add_sub_cancel_left, ← hw, List.take_left]

theorem turn_unicode {role : Role} {a b c d : UInt8} (hstate : s.state = .hex role 0)
    (hhex : [a, b, c, d].all isHexDigit) (hat : At bytes s (a :: b :: c :: d :: rest)) :
    scan names bytes true s = scan names bytes true ((s.advance 4).goto (.string role)) := by
  rw [turn_hex names hstate (by decide) hat, turn_hex names rfl (by decide) (hat.move _),
    turn_hex names rfl (by decide) ((hat.move _).move _)]
  apply turn names (((hat.move _).move _).move _)
  have hslice : slice bytes (s.pos + 3 + 1 - 4, s.pos + 3 + 1) = [a, b, c, d] :=
    slice_of_at (n := 4) (w := [a, b, c, d]) hat rfl
  show (if (slice bytes (s.pos + 3 + 1 - 4, s.pos + 3 + 1)).all isHexDigit then _ else _) = _
  rw [hslice, if_pos hhex]
  rfl

/-- A string is read to its closing quote. -/
theorem quoted_read {role : Role} (hstate : s.state = .string role) (hw : Quoted w)
    (hat : At bytes s (w ++ rest)) :
    scan names bytes true s
      = scan names bytes true ((s.advance w.length).stringDone names role bytes) := by
  induction hw generalizing s with
  | close =>
    have hfind : (bytes.drop s.pos).findIdx? stopsString = some 0 := by
      rw [hat]
      rfl
    apply turn names hat
    rw [step.eq_def, hstate]
    dsimp only [List.singleton_append, List.head?_cons]
    rw [skipString, hfind, hat]
    rfl
  | plain hquote hescape hcontrol _ ih =>
    rw [scan_plain names hstate hat.next (plain_not_stops hquote hescape hcontrol)]
    have hadvance := ih (s := s.advance 1) hstate (hat.advance (w := [_]))
    rw [advance_advance, Nat.add_comm] at hadvance
    exact hadvance
  | @escape b text hb _ ih =>
    have hturn : step names bytes (some b) (s.move (.escape role))
        = ((s.move (.escape role)).move (.string role), none) := if_pos hb
    rw [turn_escape names hstate hat, turn names (hat.move _) hturn, ih rfl ((hat.move _).move _)]
    simp only [move_eq, advance_goto, advance_advance, stringDone_goto]
    rw [show 1 + 1 + text.length = (byte '\\' :: b :: text).length by
      rw [List.length_cons, List.length_cons]; omega]
  | @unicode a b c d text hhex _ ih =>
    have hat' : At bytes ((s.move (.escape role)).move (.hex role 0))
        ([a, b, c, d] ++ (text ++ rest)) := (hat.move _).move _
    have hturn : step names bytes (some (byte 'u')) (s.move (.escape role))
        = ((s.move (.escape role)).move (.hex role 0), none) := rfl
    have hread := ih (s := (((s.move (.escape role)).move (.hex role 0)).advance 4).goto
      (.string role)) rfl hat'.advance
    rw [turn_escape names hstate hat, turn names (hat.move _) hturn,
      turn_unicode names rfl hhex hat', hread]
    simp only [move_eq, advance_goto, advance_advance, stringDone_goto]
    rw [show 1 + 1 + 4 + text.length
        = (byte '\\' :: byte 'u' :: a :: b :: c :: d :: text).length by
      simp only [List.length_cons]; omega]

end Strings

section Trees

/-- The scanner after `n` bytes, which leave what they name in it. -/
def reached (s : Scanner) (n : Nat) (members : MemberScan) (keyStart : Nat) (state : State) :
    Scanner :=
  { s with pos := s.pos + n, members := members, keyStart := keyStart, state := state }

theorem name_read {name : List UInt8} (hstate : s.state = .keyQuote) (hname : Quoted name)
    (hat : At bytes s (byte '"' :: (name ++ rest))) :
    ∃ keyStart, scan names bytes true s
      = scan names bytes true (s.reached (name.length + 1)
          (s.members.key names s.stack.length (byte '"' :: name)) keyStart .colon) := by
  have hturn : step names bytes (some (byte '"')) s
      = ({ s.move (.string .key) with keyStart := s.pos }, none) := by
    rw [step.eq_def, hstate]
    rfl
  have hat' : At bytes { s.move (.string .key) with keyStart := s.pos } (name ++ rest) :=
    hat.move (.string .key)
  have hslice : slice bytes (s.pos, s.pos + 1 + name.length) = byte '"' :: name := by
    rw [Nat.add_assoc]
    exact slice_of_at (w := byte '"' :: name) hat (Nat.add_comm _ _)
  refine ⟨s.pos, ?_⟩
  rw [turn names hat hturn, quoted_read names rfl hname hat']
  simp only [stringDone, advance, move, reached, hslice]
  rw [Nat.add_assoc, Nat.add_comm 1]

@[simp] theorem reached_stack {n k : Nat} {members : MemberScan} {state : State} :
    (s.reached n members k state).stack = s.stack := rfl

@[simp] theorem reached_pos {n k : Nat} {members : MemberScan} {state : State} :
    (s.reached n members k state).pos = s.pos + n := rfl

@[simp] theorem reached_members {n k : Nat} {members : MemberScan} {state : State} :
    (s.reached n members k state).members = members := rfl

@[simp] theorem reached_state {n k : Nat} {members : MemberScan} {state : State} :
    (s.reached n members k state).state = state := rfl

theorem At.reached (members : MemberScan) (keyStart : Nat) (state : State)
    (h : At bytes s (w ++ rest)) : At bytes (s.reached w.length members keyStart state) rest :=
  h.advance

theorem label_read {isObject : Bool} {label : Label}
    (hstate : s.state = afterComma (opening isObject)) (hlabel : label.Valid isObject)
    (hat : At bytes s (label.text ++ rest)) :
    ∃ keyStart, scan names bytes true s
      = scan names bytes true (s.reached label.text.length
          (label.record names s.stack.length s.members) keyStart .value) := by
  have hskips {state : State} (u : Scanner) (hu : u.state = state)
      (h : state = .value ∨ state = .keyQuote ∨ state = .colon) : SkipsBlanks u := by
    unfold SkipsBlanks
    rw [hu]
    rcases h with rfl | rfl | rfl <;> trivial
  cases label with
  | element blank =>
    obtain ⟨rfl, hblank⟩ := hlabel
    refine ⟨s.keyStart, ?_⟩
    rw [blanks names (hskips s hstate (.inl rfl)) hblank hat, reached]
    congr 1
    rw [advance]
    congr 1
  | member before name after blank =>
    obtain ⟨rfl, hbefore, hname, hafter, hblank⟩ := hlabel
    have hat₀ : At bytes s
        (before ++ (byte '"' :: (name ++ (after ++ byte ':' :: (blank ++ rest))))) := by
      simpa only [Label.text, List.append_assoc, List.cons_append] using hat
    have hat₁ := hat₀.advance
    obtain ⟨keyStart, hread⟩ := name_read names (s := s.advance before.length) hstate hname hat₁
    rw [advance_stack, advance_members] at hread
    refine ⟨keyStart, ?_⟩
    rw [blanks names (hskips s hstate (.inr (.inl rfl))) hbefore hat₀, hread]
    have hat₂ := At.reached (w := byte '"' :: name)
      (s.members.key names s.stack.length (byte '"' :: name)) keyStart .colon hat₁
    have hcolon {u : Scanner} (hu : u.state = .colon) :
        step names bytes (some (byte ':')) u = (u.move .value, none) := by
      rw [step.eq_def, hu]
      rfl
    rw [List.length_cons] at hat₂
    have hat₃ := (hat₂.advance).move .value
    have hsum : before.length + (name.length + 1) + after.length + 1 + blank.length
        = (Label.member before name after blank).text.length := by
      simp only [Label.text, List.length_append, List.length_cons]
      omega
    rw [blanks names (hskips _ rfl (.inr (.inr rfl))) hafter hat₂]
    rw [turn names hat₂.advance (hcolon rfl)]
    rw [blanks names (hskips _ rfl (.inl rfl)) hblank hat₃]
    simp only [← hsum, reached, advance, move, Label.record, Nat.add_assoc]

theorem unsigned_head (h : Unsigned w) : ∃ b rest, w = b :: rest ∧ isDigit b := by
  obtain ⟨integer, fraction, exponent, rfl, hinteger, -⟩ := h
  rcases hinteger with rfl | ⟨⟨hne, hdigits⟩, -⟩
  · exact ⟨byte '0', _, rfl, rfl⟩
  · obtain ⟨b, integer, rfl⟩ := List.exists_cons_of_ne_nil hne
    exact ⟨b, _, rfl, ((Bool.and_eq_true _ _).mp (List.all_cons.symm.trans hdigits)).1⟩

theorem ne_of_digit {c : UInt8} (hb : isDigit b) (hc : isDigit c = false) : b ≠ c := by
  rintro rfl
  rw [hc] at hb
  cases hb

/-- The first byte of a value. -/
theorem tree_head {t : Tree} (ht : t.Valid) :
    ∃ b text, t.text = b :: text ∧ isWhitespace b = false ∧ b ≠ byte ']' ∧ b ≠ byte '\x7d' := by
  cases t with
  | word text =>
    cases ht with
    | unsigned h =>
      obtain ⟨b, rest, rfl, hb⟩ := unsigned_head h
      have hnot (c : UInt8) (hc : mayFollow c) : b ≠ c := ne_of_digit hb (mayFollow_scalar hc).1
      refine ⟨b, rest, rfl, ?_, hnot _ rfl, hnot _ rfl⟩
      cases hblank : isWhitespace b with
      | false => rfl
      | true => exact absurd rfl (hnot b (by simp only [mayFollow, hblank, Bool.true_or]))
    | _ => exact ⟨_, _, rfl, by decide, by decide, by decide⟩
  | string text => exact ⟨_, _, rfl, by decide, by decide, by decide⟩
  | empty isObject blank =>
    cases isObject <;> exact ⟨_, _, rfl, by decide, by decide, by decide⟩
  | node isObject label first rest =>
    cases isObject <;> exact ⟨_, _, rfl, by decide, by decide, by decide⟩

theorem rest_follows {isObject : Bool} {r : Rest} (hr : r.Valid isObject) :
    Follows (r.text isObject ++ rest) := by
  have hblank {blank text : List UInt8} (h : blank.all isWhitespace)
      (htext : Follows text) : Follows (blank ++ text) := by
    cases blank with
    | nil => exact htext
    | cons b blank =>
      intro c hc
      cases hc
      have hb := ((Bool.and_eq_true _ _).mp (List.all_cons.symm.trans h)).1
      simp only [mayFollow, hb, Bool.true_or]
  cases r with
  | close blank =>
    rw [Rest.text, List.append_assoc]
    apply hblank hr
    intro b hb
    cases hb
    cases isObject <;> rfl
  | comma blank label item r =>
    rw [Rest.text, List.append_assoc]
    apply hblank hr.1
    intro b hb
    cases hb
    rfl

/-- In a new array or object the scanner goes on to its first label. -/
theorem inner_label {isObject : Bool} {label : Label} {stack : List UInt8}
    (hstate : s.state = .inner false) (hstack : s.stack = opening isObject :: stack)
    (hlabel : label.Valid isObject) {item : Tree} (hitem : item.Valid)
    (hat : At bytes s (label.text ++ (item.text ++ rest))) :
    scan names bytes true s = scan names bytes true (s.goto (afterComma (opening isObject))) := by
  obtain ⟨blank, b, text, htext, hblank, hb, hsquare, hcurly⟩ : ∃ blank b text,
      label.text ++ (item.text ++ rest) = blank ++ b :: text ∧ blank.all isWhitespace ∧
        isWhitespace b = false ∧ b ≠ byte ']' ∧ b ≠ byte '\x7d' := by
    cases label with
    | element blank =>
      obtain ⟨b, text, htext, hb⟩ := tree_head hitem
      exact ⟨blank, b, text ++ rest, by rw [htext]; rfl, hlabel.2, hb⟩
    | member before name after blank =>
      exact ⟨before, byte '"', _, by rw [Label.text, List.append_assoc]; rfl, hlabel.2.1, by decide⟩
  rw [htext] at hat
  have hturn {u : Scanner} (hu : u.state = .inner false) (hopen : u.stack = s.stack) :
      step names bytes (some b) u = (u.goto (afterComma (opening isObject)), none) := by
    rw [step.eq_def, hu, hopen, hstack]
    dsimp only
    rw [if_neg (by rw [hb]; exact Bool.false_ne_true), if_neg (by simp), if_neg (by simp [hsquare]),
      if_neg (by simp [hcurly]), if_neg Bool.false_ne_true]
  rw [blanks names (by rw [SkipsBlanks, hstate, hstack]; exact List.cons_ne_nil _ _) hblank hat,
    turn names hat.advance (hturn hstate rfl),
    blanks names (s := s.goto (afterComma (opening isObject))) _ hblank (hat.goto _)]
  · rfl
  · cases isObject <;> trivial

theorem close_read {isObject accept : Bool} {blank stack : List UInt8}
    (hstate : s.state = .inner accept) (hstack : s.stack = opening isObject :: stack)
    (hblank : blank.all isWhitespace) (hat : At bytes s (blank ++ closing isObject :: rest)) :
    scan names bytes true s
      = scan names bytes true (valueDone { s.advance (blank.length + 1) with stack := stack }) := by
  have hturn {u : Scanner} (hu : u.state = .inner accept) (hopen : u.stack = s.stack) :
      step names bytes (some (closing isObject)) u = (u.close, none) := by
    rw [step.eq_def, hu, hopen, hstack]
    cases isObject <;> rfl
  rw [blanks names (by rw [SkipsBlanks, hstate, hstack]; exact List.cons_ne_nil _ _) hblank hat,
    turn names hat.advance (hturn hstate rfl), close]
  simp only [advance, hstack, List.tail_cons, Nat.add_assoc]

/-- The scanner at the first byte of a value. -/
def around (s : Scanner) (b : UInt8) : Scanner :=
  { s with members := s.members.valueStarts s.stack.length s.pos b }

theorem At.around (b : UInt8) (h : At bytes s rest) : At bytes (s.around b) rest := h

/-- The scanner after the bracket of an array or object. -/
def push (s : Scanner) (b : UInt8) : Scanner :=
  { s with stack := b :: s.stack, pos := s.pos + 1, state := .inner false }

theorem At.push (c : UInt8) (h : At bytes s (b :: rest)) : At bytes (s.push c) rest :=
  At.advance (w := [b]) h

theorem value_turn (hstate : s.state = .value) (hb : isWhitespace b = false)
    (hfirst : (s.around b).firstByte b = (t, none)) (hat : At bytes s (b :: rest)) :
    scan names bytes true s = scan names bytes true t := by
  apply turn names hat
  rw [step.eq_def, hstate]
  dsimp only [List.head?_cons]
  rw [if_neg (by rw [hb]; exact Bool.false_ne_true), ← hstate]
  exact hfirst

theorem word_read (hstate : s.state = .value) (hw : Word w) (hrest : Follows rest)
    (hat : At bytes s (w ++ rest)) :
    scan names bytes true s = scan names bytes true ((s.around (w.headD 0)).ended w.length) := by
  have hliteral (b : UInt8) (w : List UInt8) (hb : isWhitespace b = false) (hne : w ≠ [])
      (hfirst : (s.around b).firstByte b = ((s.around b).move (.literal w), none))
      (hat : At bytes s (b :: (w ++ rest))) :
      scan names bytes true s = scan names bytes true ((s.around b).ended (w.length + 1)) := by
    rw [value_turn names hstate hb hfirst hat, literal_ended names rfl hne ((hat.around b).move _),
      ended_move]
  cases hw with
  | null => exact hliteral _ _ rfl nofun rfl hat
  | true => exact hliteral _ _ rfl nofun rfl hat
  | false => exact hliteral _ _ rfl nofun rfl hat
  | unsigned h =>
    obtain ⟨b, text, rfl, hb⟩ := unsigned_head h
    have hblank : isWhitespace b = false := by
      cases hblank : isWhitespace b with
      | false => rfl
      | true =>
        exact absurd rfl (ne_of_digit hb
          (mayFollow_scalar (by simp only [mayFollow, hblank, Bool.true_or])).1)
    have hfirst : (s.around b).firstByte b = ((s.around b).goto .integerFirst, none) := by
      rw [firstByte, if_neg (ne_of_digit hb rfl), if_neg (ne_of_digit hb rfl),
        if_neg (ne_of_digit hb rfl), if_neg (ne_of_digit hb rfl), if_pos hb]
    rw [value_turn names hstate hblank hfirst hat,
      unsigned_ended names rfl h hrest ((hat.around b).goto _), ended_goto]
    rfl
  | @negative w h =>
    have hfirst : (s.around (byte '-')).firstByte (byte '-')
        = ((s.around (byte '-')).move .integerFirst, none) := rfl
    rw [value_turn names hstate rfl hfirst hat,
      unsigned_ended names rfl h hrest ((hat.around _).move _), ended_move]
    rfl

theorem valueDone_state {stack : List UInt8} (h : s.stack = b :: stack) :
    s.valueDone.state = .inner true := by
  rw [valueDone, h]
  rfl

mutual

theorem tree_read (t : Tree) {s : Scanner} {rest : List UInt8} (hstate : s.state = .value)
    (ht : t.Valid) (hrest : t.isWord → Follows rest) (hat : At bytes s (t.text ++ rest)) :
    ∃ keyStart, scan names bytes true s = scan names bytes true
      (s.reached t.text.length (t.record names s.stack.length s.pos s.members) keyStart
        s.valueDone.state) := by
  cases t with
  | word text => exact ⟨s.keyStart, word_read names hstate ht (hrest rfl) hat⟩
  | string text =>
    have hfirst : (s.around (byte '"')).firstByte (byte '"')
        = ((s.around (byte '"')).move (.string .value), none) := rfl
    refine ⟨s.keyStart, ?_⟩
    rw [value_turn names hstate rfl hfirst hat,
      quoted_read names rfl ht ((hat.around (byte '"')).move _)]
    show scan names bytes true (((s.around _).move _).ended text.length) = _
    rw [ended_move]
    rfl
  | empty isObject blank =>
    have hfirst : (s.around (opening isObject)).firstByte (opening isObject)
        = ((s.around (opening isObject)).push (opening isObject), none) := by
      cases isObject <;> rfl
    refine ⟨s.keyStart, ?_⟩
    have hat' : At bytes s (opening isObject :: (blank ++ closing isObject :: rest)) := by
      simpa only [Tree.text, List.cons_append, List.append_assoc, List.nil_append] using hat
    rw [value_turn names hstate (by cases isObject <;> rfl) hfirst hat',
      close_read names (s := (s.around (opening isObject)).push (opening isObject)) rfl rfl ht
        ((hat'.around _).push _)]
    have hlength : (Tree.empty isObject blank).text.length = 1 + (blank.length + 1) := by
      simp only [Tree.text, List.length_cons, List.length_append, List.length_nil]
      omega
    rw [reached, Tree.record, hlength, ← Nat.add_assoc s.pos]
    · rfl
    · exact nofun
  | node isObject label first r =>
    obtain ⟨hlabel, hfirst, hr⟩ := ht
    have hopen : (s.around (opening isObject)).firstByte (opening isObject)
        = ((s.around (opening isObject)).push (opening isObject), none) := by
      cases isObject <;> rfl
    have hat₀ : At bytes s
        (opening isObject :: (label.text ++ (first.text ++ (r.text isObject ++ rest)))) := by
      simpa only [Tree.text, List.cons_append, List.append_assoc] using hat
    have hat₁ := (hat₀.around (opening isObject)).push (opening isObject)
    have hat₂ := hat₁.goto (afterComma (opening isObject))
    rw [value_turn names hstate (by cases isObject <;> rfl) hopen hat₀,
      inner_label names rfl rfl hlabel hfirst hat₁]
    obtain ⟨k₁, hread⟩ := label_read names rfl hlabel hat₂
    rw [hread]
    have hat₃ := hat₂.reached (label.record names (s.stack.length + 1)
      (s.members.valueStarts s.stack.length s.pos (opening isObject))) k₁ .value
    obtain ⟨k₂, hread⟩ := tree_read first rfl hfirst (fun _ => rest_follows hr) hat₃
    have hat₄ := hat₃.reached (first.record names (s.stack.length + 1) (s.pos + 1 + label.text.length)
      (label.record names (s.stack.length + 1)
        (s.members.valueStarts s.stack.length s.pos (opening isObject)))) k₂ (.inner true)
    obtain ⟨k₃, hrest⟩ := rest_read r rfl rfl hr hat₄
    refine ⟨k₃, hread.trans (hrest.trans ?_)⟩
    have hlength : (Tree.node isObject label first r).text.length
        = 1 + label.text.length + first.text.length + (r.text isObject).length := by
      simp only [Tree.text, List.length_cons, List.length_append]
      omega
    rw [Tree.record, hlength]
    simp only [reached, ← Nat.add_assoc s.pos]
    rfl

theorem rest_read (r : Rest) {s : Scanner} {rest stack : List UInt8} {isObject : Bool}
    (hstate : s.state = .inner true) (hstack : s.stack = opening isObject :: stack)
    (hr : r.Valid isObject) (hat : At bytes s (r.text isObject ++ rest)) :
    ∃ keyStart, scan names bytes true s = scan names bytes true
      (valueDone { s with
        pos := s.pos + (r.text isObject).length
        stack := stack
        members := r.record names isObject s.stack.length s.pos s.members
        keyStart := keyStart }) := by
  cases r with
  | close blank =>
    have hat' : At bytes s (blank ++ closing isObject :: rest) := by
      simpa only [Rest.text, List.append_assoc, List.singleton_append] using hat
    refine ⟨s.keyStart, ?_⟩
    rw [close_read names hstate hstack hr hat', Rest.text, List.length_append]
    rfl
  | comma blank label item r =>
    obtain ⟨hblank, hlabel, hitem, hr⟩ := hr
    have hat₀ : At bytes s
        (blank ++ byte ',' :: (label.text ++ (item.text ++ (r.text isObject ++ rest)))) := by
      simpa only [Rest.text, List.cons_append, List.append_assoc] using hat
    have hcomma : step names bytes (some (byte ',')) (s.advance blank.length)
        = ((s.advance blank.length).move (afterComma (opening isObject)), none) := by
      rw [step.eq_def, show (s.advance blank.length).state = _ from hstate, advance_stack, hstack]
      rfl
    have hat₁ := hat₀.advance.move (afterComma (opening isObject))
    rw [blanks names (by rw [SkipsBlanks, hstate, hstack]; exact List.cons_ne_nil _ _) hblank hat₀,
      turn names hat₀.advance hcomma]
    obtain ⟨k₁, hread⟩ := label_read names rfl hlabel hat₁
    rw [hread]
    have hat₂ := hat₁.reached (label.record names s.stack.length s.members) k₁ .value
    obtain ⟨k₂, hread⟩ := tree_read item rfl hitem (fun _ => rest_follows hr) hat₂
    have hat₃ := hat₂.reached (item.record names s.stack.length
      (s.pos + blank.length + 1 + label.text.length)
      (label.record names s.stack.length s.members)) k₂ (.inner true)
    obtain ⟨k₃, hrest⟩ := rest_read r rfl (by exact hstack) hr hat₃
    rw [valueDone_state (by exact hstack)] at hread
    refine ⟨k₃, hread.trans (hrest.trans ?_)⟩
    have hlength : (Rest.text isObject (.comma blank label item r)).length
        = blank.length + 1 + label.text.length + item.text.length + (r.text isObject).length := by
      simp only [Rest.text, List.length_cons, List.length_append]
      omega
    rw [Rest.record, hlength]
    simp only [reached, ← Nat.add_assoc s.pos]
    rfl

end

/-- Only a number or a literal starts as a scalar. -/
theorem isScalar_head {t : Tree} (ht : t.Valid) (hs : s.root = some t.firstByte) :
    s.isScalar = t.isWord := by
  rw [isScalar, hs]
  cases t with
  | word text =>
    cases ht with
    | unsigned h =>
      obtain ⟨b, rest, rfl, hb⟩ := unsigned_head h
      show (_ || isDigit b) = true
      rw [hb, Bool.or_true]
    | _ => rfl
  | string text => rfl
  | empty isObject blank => cases isObject <;> rfl
  | node isObject label first rest => cases isObject <;> rfl

/-- A message at the start of a stream is read, with what it names. -/
theorem message_read {stream : List UInt8} (m : Message stream) :
    ∃ keyStart, scan names stream true start
      = (.complete m.stop,
          ⟨.done, m.stop, [], some m.tree.firstByte, m.blank.length, keyStart,
            m.tree.record names 0 m.blank.length .start⟩) := by
  obtain ⟨blank, t, rest, rfl, hblank, ht, hrest⟩ := m
  obtain ⟨b, text, htext, hb, -⟩ := tree_head ht
  have hat : At (blank ++ (t.text ++ rest)) start (blank ++ (t.text ++ rest)) := rfl
  let s : Scanner := ⟨.value, blank.length, [], some t.firstByte, blank.length, 0, .start⟩
  have hat' : At (blank ++ (t.text ++ rest)) s (t.text ++ rest) := List.drop_left
  have hturn : step names (blank ++ (t.text ++ rest)) (t.text ++ rest).head?
      (start.advance blank.length) = (s, none) := by
    rw [htext, step.eq_def]
    show (if isWhitespace b then _ else _) = _
    rw [if_neg (by rw [hb]; exact Bool.false_ne_true)]
    simp only [s, advance, start, Nat.zero_add, Tree.firstByte, htext, List.headD_cons]
  obtain ⟨k, hread⟩ := tree_read names t (s := s) rfl ht hrest hat'
  refine ⟨k, ?_⟩
  rw [blanks names (by trivial) hblank hat, turn names hat.advance hturn, hread]
  have hat'' := hat'.reached (t.record names 0 blank.length .start) k s.valueDone.state
  have hstate : s.valueDone.state = if t.isWord then .peekEnd else .done := by
    rw [← isScalar_head ht (s := s) rfl]
    rfl
  cases hword : t.isWord with
  | false =>
    rw [hword] at hstate
    rw [hstate]
    exact scan_done names rfl
  | true =>
    rw [hword] at hstate
    rw [hstate] at hat'' ⊢
    have hend : step names (blank ++ (t.text ++ rest)) rest.head?
        (s.reached t.text.length (t.record names 0 blank.length .start) k .peekEnd)
        = (s.reached t.text.length (t.record names 0 blank.length .start) k .done, none) := by
      cases rest with
      | nil => rfl
      | cons c rest =>
        exact if_pos (hrest hword c rfl)
    exact (turn names hat'' hend).trans (scan_done names rfl)

end Trees

end Scanner

end KRust.Rpc.Framing
