import KRust.Rpc.Framing

/-!
The scanner goes on where it stopped: what it finds in the bytes so far it finds in the whole
stream, and where it needs a byte it goes on as if it had seen the byte at once.
-/

set_option linter.unusedSectionVars false

namespace KRust.Rpc.Framing.Scanner

variable (names : Names) {bytes : List UInt8} {atEnd : Bool} {s t : Scanner}

section Turns

theorem scan_needByte (hnext : bytes[s.pos]? = none) (h : s.state ≠ .done) :
    scan names bytes false s = (.needByte, s) := by
  rw [scan.eq_def, if_pos ⟨hnext, rfl, h⟩]

/-- A turn is taken when there is a byte, or no byte follows, or the scanner is done. -/
def Turns (bytes : List UInt8) (atEnd : Bool) (s : Scanner) : Prop :=
  bytes[s.pos]? = none → atEnd = true ∨ s.state = .done

theorem Turns.not_needByte (h : Turns bytes atEnd s) :
    ¬(bytes[s.pos]? = none ∧ !atEnd ∧ s.state ≠ .done) := by
  rintro ⟨hnone, hend, hstate⟩
  rcases h hnone with rfl | hdone
  · cases hend
  · exact hstate hdone

/-- A turn that goes on. -/
theorem scan_next (hturns : Turns bytes atEnd s)
    (h : step names bytes bytes[s.pos]? s = (t, none)) :
    scan names bytes atEnd s = scan names bytes atEnd t := by
  rw [scan.eq_def names bytes atEnd s, if_neg hturns.not_needByte]
  split
  · rename_i heq
    rw [h] at heq
    cases heq
  · rename_i heq
    rw [h] at heq
    cases heq
    rfl

/-- A turn with an outcome. -/
theorem scan_outcome {outcome : Outcome} (hturns : Turns bytes atEnd s)
    (h : step names bytes bytes[s.pos]? s = (t, some outcome)) :
    scan names bytes atEnd s = (outcome, t) := by
  rw [scan.eq_def names bytes atEnd s, if_neg hturns.not_needByte]
  split
  · rename_i heq
    rw [h] at heq
    cases heq
    rfl
  · rename_i heq
    rw [h] at heq
    cases heq

theorem scan_done (h : s.state = .done) : scan names bytes atEnd s = (.complete s.pos, s) := by
  apply scan_outcome names fun _ => .inr h
  rw [step.eq_def, h]

end Turns

section Strings

/-- A byte of a string that is neither its end nor an escape is skipped. -/
theorem scan_plain {role : Role} {b : UInt8} (hstate : s.state = .string role)
    (hnext : bytes[s.pos]? = some b) (hb : stopsString b = false) :
    scan names bytes atEnd s = scan names bytes atEnd { s with pos := s.pos + 1 } := by
  have hturns : Turns bytes atEnd s := by
    intro hnone
    rw [hnext] at hnone
    cases hnone
  have hpos := (List.getElem?_eq_some_iff.mp hnext).1
  have hdrop : bytes.drop s.pos = b :: bytes.drop (s.pos + 1) := by
    rw [List.drop_eq_getElem_cons hpos, (List.getElem?_eq_some_iff.mp hnext).2]
  have hfind : (bytes.drop s.pos).findIdx? stopsString
      = ((bytes.drop (s.pos + 1)).findIdx? stopsString).map (· + 1) := by
    rw [hdrop, List.findIdx?_cons, hb]
    rfl
  have hstep (u : Scanner) (hu : u.state = .string role) (b : UInt8) :
      step names bytes (some b) u = u.skipString names role bytes := by
    rw [step.eq_def, hu]
  cases hrest : (bytes.drop (s.pos + 1)).findIdx? stopsString with
  | none =>
    have hskip : step names bytes bytes[s.pos]? s = ({ s with pos := bytes.length }, none) := by
      rw [hnext, hstep s hstate, skipString, hfind, hrest]
      rfl
    rw [scan_next names hturns hskip]
    by_cases hend : s.pos + 1 < bytes.length
    · symm
      apply scan_next
      · intro hnone
        rw [List.getElem?_eq_getElem hend] at hnone
        cases hnone
      · show step names bytes bytes[s.pos + 1]? { s with pos := s.pos + 1 } = _
        rw [List.getElem?_eq_getElem hend, hstep _ (by exact hstate), skipString, hrest]
    · rw [show s.pos + 1 = bytes.length by omega]
  | some offset =>
    have hend : s.pos + 1 < bytes.length := by
      by_contra hend
      rw [List.drop_eq_nil_of_le (Nat.not_lt.mp hend)] at hrest
      cases hrest
    -- Both turns end at the same byte.
    have hskip : step names bytes bytes[s.pos]? s
        = step names bytes bytes[s.pos + 1]? { s with pos := s.pos + 1 } := by
      rw [hnext, hstep s hstate, List.getElem?_eq_getElem hend, hstep _ (by exact hstate),
        skipString, skipString, hfind, hrest, hdrop]
      simp only [Option.map_some, List.getD_cons_succ]
      rw [show s.pos + (offset + 1) + 1 = s.pos + 1 + offset + 1 by omega]
    have hturns' : Turns bytes atEnd { s with pos := s.pos + 1 } := by
      intro hnone
      rw [List.getElem?_eq_getElem hend] at hnone
      cases hnone
    rcases hturn : step names bytes bytes[s.pos]? s with ⟨t, _ | outcome⟩
    · rw [scan_next names hturns hturn, scan_next names hturns' (hskip.symm.trans hturn)]
    · rw [scan_outcome names hturns hturn, scan_outcome names hturns' (hskip.symm.trans hturn)]

theorem scan_plains {role : Role} (n : Nat) (hstate : s.state = .string role)
    (h : ∀ i < n, ∃ b, bytes[s.pos + i]? = some b ∧ stopsString b = false) :
    scan names bytes atEnd s = scan names bytes atEnd { s with pos := s.pos + n } := by
  induction n generalizing s with
  | zero => rfl
  | succ n ih =>
    obtain ⟨b, hnext, hb⟩ := h 0 (Nat.succ_pos n)
    rw [scan_plain names hstate hnext hb, ih (s := { s with pos := s.pos + 1 }) hstate]
    · rw [show s.pos + 1 + n = s.pos + (n + 1) by omega]
    · intro i hi
      rw [show s.pos + 1 + i = s.pos + (i + 1) by omega]
      exact h (i + 1) (Nat.succ_lt_succ hi)

end Strings

section Resume

variable (more : List UInt8)

theorem slice_append {first last : Nat} (h : last ≤ bytes.length) :
    slice (bytes ++ more) (first, last) = slice bytes (first, last) := by
  unfold slice
  by_cases hfirst : first ≤ bytes.length
  · rw [List.drop_append_of_le_length hfirst, List.take_append_of_le_length]
    rw [List.length_drop]
    exact Nat.sub_le_sub_right h _
  · rw [show last - first = 0 by omega, List.take_zero, List.take_zero]

/-- A turn that finds a byte is the same turn when more bytes follow, unless it skips to the
end of the bytes in a string. -/
theorem step_append {b : UInt8} (hnext : bytes[s.pos]? = some b)
    (hstring : ∀ role, s.state = .string role →
      (bytes.drop s.pos).findIdx? stopsString ≠ none) :
    step names (bytes ++ more) (some b) s = step names bytes (some b) s := by
  have hpos := (List.getElem?_eq_some_iff.mp hnext).1
  rw [step.eq_def, step.eq_def]
  cases hstate : s.state with
  | string role =>
    obtain ⟨offset, hoffset⟩ := Option.ne_none_iff_exists'.mp (hstring role hstate)
    have hlt : offset < (bytes.drop s.pos).length := (List.findIdx?_eq_some_iff_getElem.mp hoffset).1
    have hlength : s.pos + offset + 1 ≤ bytes.length := by
      rw [List.length_drop] at hlt
      omega
    have hfind : ((bytes ++ more).drop s.pos).findIdx? stopsString = some offset := by
      rw [List.drop_append_of_le_length (Nat.le_of_lt hpos), List.findIdx?_append, hoffset]
      rfl
    have hbyte : ((bytes ++ more).drop s.pos).getD offset 0 = (bytes.drop s.pos).getD offset 0 := by
      rw [List.drop_append_of_le_length (Nat.le_of_lt hpos), List.getD_eq_getElem?_getD,
        List.getElem?_append_left hlt, ← List.getD_eq_getElem?_getD]
    dsimp only
    rw [skipString, skipString, hfind, hoffset]
    dsimp only
    rw [hbyte]
    cases role with
    | value => rfl
    | key => simp only [stringDone, slice_append more hlength]
  | hex role digit =>
    dsimp only
    rw [slice_append more (Nat.succ_le_of_lt hpos)]
  | _ => rfl

/-- No turn asks for a byte. -/
theorem step_not_needByte {next : Option UInt8} {outcome : Outcome}
    (h : step names bytes next s = (t, some outcome)) : outcome ≠ .needByte := by
  rintro rfl
  unfold step firstByte skipString at h
  split at h
  all_goals
    try dsimp only at h
    try split at h
    all_goals
      try split_ifs at h
      all_goals cases h

/-- A string that the bytes do not end is skipped to their end, and goes on there. -/
theorem scan_skip {role : Role} (hstate : s.state = .string role) (hpos : s.pos ≤ bytes.length)
    (hfind : (bytes.drop s.pos).findIdx? stopsString = none) :
    scan names (bytes ++ more) atEnd s
      = scan names (bytes ++ more) atEnd { s with pos := bytes.length } := by
  rw [scan_plains names (bytes.length - s.pos) hstate]
  · rw [Nat.add_sub_cancel' hpos]
  · intro i hi
    have hlt : s.pos + i < bytes.length := by omega
    refine ⟨bytes[s.pos + i], ?_, ?_⟩
    · rw [List.getElem?_append_left hlt, List.getElem?_eq_getElem hlt]
    · rw [List.findIdx?_eq_none_iff] at hfind
      apply hfind
      rw [List.mem_iff_getElem?]
      exact ⟨i, by rw [List.getElem?_drop, List.getElem?_eq_getElem hlt]⟩

/-- What the scanner finds in the bytes so far it finds in the stream; where it needs a byte
it goes on from where it stopped. -/
theorem scan_append {outcome : Outcome} (hscan : scan names bytes false s = (outcome, t)) :
    (outcome ≠ .needByte → scan names (bytes ++ more) atEnd s = (outcome, t)) ∧
      (outcome = .needByte →
        scan names (bytes ++ more) atEnd s = scan names (bytes ++ more) atEnd t) := by
  have hturns {u : Scanner} {b : UInt8} (hnext : bytes[u.pos]? = some b) :
      (bytes ++ more)[u.pos]? = some b ∧ Turns (bytes ++ more) atEnd u := by
    have hlt := (List.getElem?_eq_some_iff.mp hnext).1
    have hmore : (bytes ++ more)[u.pos]? = some b := by
      rw [List.getElem?_append_left hlt, hnext]
    refine ⟨hmore, fun hnone => ?_⟩
    rw [hmore] at hnone
    cases hnone
  fun_induction scan names bytes false s with
  | case1 s h =>
    cases hscan
    exact ⟨fun hne => absurd rfl hne, fun _ => rfl⟩
  | case2 s h u found hstep =>
    cases hscan
    refine ⟨fun _ => ?_, fun heq => absurd heq (step_not_needByte names hstep)⟩
    by_cases hdone : s.state = .done
    · rw [step.eq_def, hdone] at hstep
      cases hstep
      exact scan_done names hdone
    · cases hnext : bytes[s.pos]? with
      | none => exact absurd ⟨hnext, rfl, hdone⟩ h
      | some b =>
        obtain ⟨hmore, hturn⟩ := hturns hnext
        apply scan_outcome names hturn
        rw [hnext] at hstep
        rw [hmore, step_append names more hnext, hstep]
        intro role hrole hfind
        rw [step.eq_def, hrole] at hstep
        dsimp only at hstep
        rw [skipString, hfind] at hstep
        cases hstep
  | case3 s h u hstep ih =>
    have hdone : s.state ≠ .done := by
      intro hdone
      rw [step.eq_def, hdone] at hstep
      cases hstep
    have hsame : scan names (bytes ++ more) atEnd s = scan names (bytes ++ more) atEnd u := by
      cases hnext : bytes[s.pos]? with
      | none => exact absurd ⟨hnext, rfl, hdone⟩ h
      | some b =>
        obtain ⟨hmore, hturn⟩ := hturns hnext
        rw [hnext] at hstep
        by_cases hskip : ∃ role, s.state = .string role ∧
            (bytes.drop s.pos).findIdx? stopsString = none
        · obtain ⟨role, hrole, hfind⟩ := hskip
          rw [step.eq_def, hrole] at hstep
          dsimp only at hstep
          rw [skipString, hfind] at hstep
          cases hstep
          exact scan_skip names more hrole
            (Nat.le_of_lt (List.getElem?_eq_some_iff.mp hnext).1) hfind
        · apply scan_next names hturn
          rw [hmore, step_append names more hnext, hstep]
          exact fun role hrole hfind => hskip ⟨role, hrole, hfind⟩
    rw [hsame]
    exact ih hscan

/-- However the stream is cut into chunks, the scanner finds what it finds in the whole. -/
theorem feed_eq_scan (s : Scanner) (buffer : List UInt8) (chunks : List (List UInt8)) :
    feed names atEnd s buffer chunks = scan names (buffer ++ chunks.flatten) atEnd s := by
  induction chunks generalizing s buffer with
  | nil =>
    rw [feed.eq_def, List.flatten_nil, List.append_nil]
    rcases hscan : scan names buffer false s with ⟨outcome, t⟩
    have hwhole := @scan_append names buffer atEnd _ _ [] _ hscan
    rw [List.append_nil] at hwhole
    cases outcome with
    | needByte => exact (hwhole.2 rfl).symm
    | _ => exact (hwhole.1 nofun).symm
  | cons chunk chunks ih =>
    rw [feed.eq_def, List.flatten_cons]
    rcases hscan : scan names buffer false s with ⟨outcome, t⟩
    have hwhole := @scan_append names buffer atEnd _ _ (chunk ++ chunks.flatten) _ hscan
    cases outcome with
    | needByte =>
      dsimp only
      rw [ih, List.append_assoc]
      exact (hwhole.2 rfl).symm
    | _ => exact (hwhole.1 nofun).symm

end Resume

end KRust.Rpc.Framing.Scanner
