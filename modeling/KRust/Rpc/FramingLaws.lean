import KRust.Rpc.FramingAccepts
import Mathlib.Data.List.Nodup

/-!
What the scanner records of a request: the text of its members as the tree of the message has
them, the last of each name.
-/

set_option linter.unusedSectionVars false

namespace KRust.Rpc.Framing

variable (names : Names) {bytes : List UInt8} {m : MemberScan} {es : List Entry}

section Idle

/-- The members are not looked at below the members of the parameters. -/
def MemberScan.Idle (depth : Nat) (m : MemberScan) : Prop :=
  3 ≤ depth ∨ depth = 2 ∧ m.inParams = false

namespace MemberScan

theorem Idle.deeper {depth : Nat} (h : Idle depth m) : Idle (depth + 1) m := by
  left
  rcases h with h | ⟨rfl, -⟩
  · exact Nat.le_succ_of_le h
  · exact Nat.le_refl _

theorem Idle.not_member {depth : Nat} (h : Idle depth m) :
    depth ≠ 1 ∧ ¬(depth = 2 ∧ m.inParams = true) := by
  rcases h with h | ⟨rfl, hparams⟩
  · omega
  · rw [hparams]
    exact ⟨by decide, by rintro ⟨-, h⟩; cases h⟩

theorem key_idle {depth : Nat} (h : Idle depth m) (key : List UInt8) :
    m.key names depth key = m := by
  obtain ⟨hone, htwo⟩ := h.not_member
  rw [MemberScan.key]
  rw [if_neg hone, if_neg htwo]

theorem valueStarts_idle {depth : Nat} (h : Idle depth m) (pos : Nat) (b : UInt8) :
    m.valueStarts depth pos b = m := by
  obtain ⟨hone, htwo⟩ := h.not_member
  rw [valueStarts, if_neg hone, if_neg htwo]

theorem valueEnds_idle {depth : Nat} (h : Idle depth m) (stop : Nat) :
    m.valueEnds depth stop = m := by
  obtain ⟨hone, htwo⟩ := h.not_member
  rw [valueEnds, if_neg hone, if_neg]
  rintro ⟨h₁, h₂, -⟩
  exact htwo ⟨h₁, h₂⟩

end MemberScan

theorem Label.record_idle {depth : Nat} (h : m.Idle depth) (label : Label) :
    label.record names depth m = m := by
  cases label with
  | element _ => rfl
  | member _ _ _ _ => exact MemberScan.key_idle names h _

mutual

theorem Tree.record_idle (t : Tree) {depth : Nat} (h : m.Idle depth) (pos : Nat) :
    t.record names depth pos m = m := by
  cases t with
  | node isObject label first r =>
    rw [Tree.record]
    rw [MemberScan.valueStarts_idle h, label.record_idle names h.deeper,
      Tree.record_idle first h.deeper, Rest.record_idle r h.deeper, MemberScan.valueEnds_idle h]
  | _ =>
    rw [Tree.record, MemberScan.valueStarts_idle h, MemberScan.valueEnds_idle h]
    exact nofun

theorem Rest.record_idle (r : Rest) {isObject : Bool} {depth : Nat} (h : m.Idle depth)
    (pos : Nat) : r.record names isObject depth pos m = m := by
  cases r with
  | close _ => rfl
  | comma blank label item r =>
    rw [Rest.record]
    rw [label.record_idle names h, Tree.record_idle item h, Rest.record_idle r h]

end

end Idle

section Entries

theorem lastNamed_append (name : String) (key : List UInt8) (t : Tree) :
    lastNamed names name (es ++ [(key, t)])
      = if decodeName names key = some name.toList then some t else lastNamed names name es := by
  rw [lastNamed, List.filter_append]
  split
  · rename_i h
    rw [List.filter_cons_of_pos (by exact decide_eq_true h), List.filter_nil,
      List.getLast?_concat]
    rfl
  · rename_i h
    rw [List.filter_cons_of_neg (by simpa using h), List.filter_nil, List.append_nil]
    rfl

theorem allDecode_append (key : List UInt8) (t : Tree) :
    allDecode names (es ++ [(key, t)])
      = (allDecode names es && (decodeName names key).isSome) := by
  rw [allDecode, List.all_append, List.all_cons, List.all_nil, Bool.and_true]
  rfl

/-- What each member of an object keeps, the object keeps. -/
theorem Rest.record_keeps {P : MemberScan → List Entry → Prop} {depth : Nat}
    (hstep : ∀ m es pos name t rest, bytes.drop pos = Tree.text t ++ rest → t.Valid → P m es →
      P (t.record names depth pos (m.key names depth (byte '"' :: name)))
        (es ++ [(byte '"' :: name, t)]))
    (r : Rest) {m : MemberScan} {es : List Entry} {pos : Nat} {rest : List UInt8}
    (hr : r.Valid true)
    (hpos : bytes.drop pos = r.text true ++ rest) (h : P m es) :
    P (r.record names true depth pos m) (es ++ r.entries) := by
  cases r with
  | close _ =>
    rw [Rest.entries, List.append_nil]
    exact h
  | comma blank label item r =>
    obtain ⟨-, hlabel, hitem, hr⟩ := hr
    cases label with
    | element _ => cases hlabel.1
    | member before name after blank' =>
      have hdrop {w rest : List UInt8} {pos : Nat} (h : bytes.drop pos = w ++ rest) :
          bytes.drop (pos + w.length) = rest := by
        rw [← List.drop_drop, h, List.drop_left]
      have hitems : bytes.drop (pos + blank.length + 1 +
          (Label.member before name after blank').text.length)
          = item.text ++ (r.text true ++ rest) := by
        rw [Rest.text] at hpos
        simp only [List.append_assoc, List.cons_append] at hpos
        have hlabel := hdrop (w := [byte ',']) (hdrop hpos)
        exact hdrop hlabel
      have hm := hstep m es _ name item _ hitems hitem h
      have hrest := Rest.record_keeps hstep r hr (hdrop hitems) hm
      rw [List.append_assoc] at hrest
      exact hrest

end Entries

section Values

theorem slice_eq {pos : Nat} {w rest : List UInt8} (h : bytes.drop pos = w ++ rest) :
    slice bytes (pos, pos + w.length) = w := by
  rw [slice, h, Nat.add_sub_cancel_left, List.take_left]

/-- A value whose inside is not looked at. -/
theorem Tree.record_of_idle {t : Tree} {depth pos : Nat}
    (h : (m.valueStarts depth pos t.firstByte).Idle (depth + 1)) :
    t.record names depth pos m
      = (m.valueStarts depth pos t.firstByte).valueEnds depth (pos + t.text.length) := by
  cases t with
  | node isObject label first r =>
    have hfirst : (Tree.node isObject label first r).firstByte = opening isObject := rfl
    rw [hfirst] at h ⊢
    rw [Tree.record, label.record_idle names h, Tree.record_idle names first h,
      Rest.record_idle names r h]
  | _ =>
    rw [Tree.record]
    exact nofun

/-- The inside of an object. -/
theorem Tree.record_object {t : Tree} {depth pos : Nat} {rest : List UInt8}
    {P : MemberScan → List Entry → Prop}
    (hstep : ∀ m es pos name t rest, bytes.drop pos = Tree.text t ++ rest → t.Valid → P m es →
      P (t.record names (depth + 1) pos (m.key names (depth + 1) (byte '"' :: name)))
        (es ++ [(byte '"' :: name, t)]))
    (ht : t.Valid) (hobject : t.isObject) (hpos : bytes.drop pos = t.text ++ rest)
    (h : P (m.valueStarts depth pos (byte '\x7b')) []) :
    ∃ m', P m' t.entries ∧ t.record names depth pos m = m'.valueEnds depth (pos + t.text.length) := by
  cases t with
  | word _ => cases hobject
  | string _ => cases hobject
  | empty isObject blank =>
    obtain rfl : isObject = true := hobject
    exact ⟨_, h, rfl⟩
  | node isObject label first r =>
    obtain rfl : isObject = true := hobject
    obtain ⟨hlabel, hfirst, hr⟩ := ht
    cases label with
    | element _ => cases hlabel.1
    | member before name after blank =>
      have hdrop {w rest : List UInt8} {pos : Nat} (h : bytes.drop pos = w ++ rest) :
          bytes.drop (pos + w.length) = rest := by
        rw [← List.drop_drop, h, List.drop_left]
      rw [Tree.text] at hpos
      simp only [List.append_assoc, List.cons_append] at hpos
      have hlabel := hdrop (w := [opening true]) hpos
      have hitem := hdrop hlabel
      have hm := hstep _ [] _ name first _ hitem hfirst h
      exact ⟨_, Rest.record_keeps names hstep r hr (hdrop hitem) hm, rfl⟩

end Values

section Params

/-- The scan inside the parameters, after some of their members. -/
structure InParams (bytes : List UInt8) (m₀ m : MemberScan) (es : List Entry) : Prop where
  member : m.member = m₀.member
  memberStart : m.memberStart = m₀.memberStart
  namesDecode : m.namesDecode = m₀.namesDecode
  request : m.request = m₀.request
  inParams : m.inParams = true
  paramsNamesDecode : m.paramsNamesDecode = allDecode names es
  paramsLogging : m.paramsLogging.map (slice bytes)
    = (lastNamed names "haskell-logging" es).map Tree.text

theorem InParams.step {m₀ : MemberScan} {pos : Nat} {t : Tree} {rest : List UInt8}
    (name : List UInt8) (hpos : bytes.drop pos = t.text ++ rest)
    (h : InParams names bytes m₀ m es) :
    InParams names bytes m₀ (t.record names 2 pos (m.key names 2 (byte '"' :: name)))
      (es ++ [(byte '"' :: name, t)]) := by
  have hkey : m.key names 2 (byte '"' :: name) = { m with
      paramsNamesDecode := m.paramsNamesDecode && (decodeName names (byte '"' :: name)).isSome
      loggingMember := (decodeName names (byte '"' :: name)).any
        fun name => name = "haskell-logging".toList } := by
    rw [MemberScan.key, if_neg (by decide), if_pos ⟨rfl, h.inParams⟩]
  rw [hkey, Tree.record_of_idle names (.inl (Nat.le_refl 3)), MemberScan.valueStarts,
    if_neg (by decide), if_pos ⟨rfl, h.inParams⟩, MemberScan.valueEnds, if_neg (by decide)]
  have hnames : (m.paramsNamesDecode && (decodeName names (byte '"' :: name)).isSome)
      = allDecode names (es ++ [(byte '"' :: name, t)]) := by
    rw [allDecode_append, h.paramsNamesDecode]
  by_cases hlogging : decodeName names (byte '"' :: name) = some "haskell-logging".toList
  · rw [if_pos ⟨rfl, h.inParams, by rw [hlogging]; rfl⟩]
    refine ⟨h.member, h.memberStart, h.namesDecode, h.request, h.inParams, hnames, ?_⟩
    rw [lastNamed_append, if_pos hlogging, Option.map_some, Option.map_some, slice_eq hpos]
  · rw [if_neg]
    · refine ⟨h.member, h.memberStart, h.namesDecode, h.request, h.inParams, hnames, ?_⟩
      rw [lastNamed_append, if_neg hlogging]
      exact h.paramsLogging
    · rintro ⟨-, -, hany⟩
      obtain ⟨decoded, hdecoded, heq⟩ := Option.any_eq_true _ _ |>.mp hany
      rw [decide_eq_true_eq] at heq
      exact hlogging (by rw [hdecoded, heq])

end Params

section Requests

theorem memberOf_eq_some {name : List Char} {i : Fin 4} :
    memberOf name = some i ↔ name = (requestMembers.get i).toList := by
  have hiff (member : String) :=
    List.finIdxOf?_eq_some_iff (l := requestMembers) (a := member) (i := i)
  constructor
  · intro h
    obtain ⟨heq, -⟩ := (hiff _).mp h
    exact (String.toList_ofList).symm.trans (congrArg String.toList heq.symm)
  · rintro rfl
    have hdistinct := List.nodup_iff_injective_get.mp (by decide : requestMembers.Nodup)
    apply (congrArg requestMembers.finIdxOf? String.ofList_toList).trans
    exact (hiff _).mpr ⟨rfl, fun j hj heq => absurd (hdistinct heq) (Fin.ne_of_lt hj)⟩

theorem firstByte_isObject {t : Tree} (ht : t.Valid) :
    t.firstByte = byte '\x7b' ↔ t.isObject = true := by
  cases t with
  | word text =>
    have hne : (Tree.word text).firstByte ≠ byte '\x7b' := by
      cases ht with
      | unsigned h =>
        obtain ⟨b, rest, rfl, hb⟩ := Scanner.unsigned_head h
        exact Scanner.ne_of_digit hb rfl
      | null => exact (by decide : byte 'n' ≠ byte '\x7b')
      | true => exact (by decide : byte 't' ≠ byte '\x7b')
      | false => exact (by decide : byte 'f' ≠ byte '\x7b')
      | negative _ => exact (by decide : byte '-' ≠ byte '\x7b')
    exact ⟨fun h => absurd h hne, nofun⟩
  | string text => exact ⟨fun h => absurd h (by decide : byte '"' ≠ byte '\x7b'), nofun⟩
  | empty isObject blank =>
    cases isObject with
    | true => exact ⟨fun _ => rfl, fun _ => rfl⟩
    | false => exact ⟨fun h => absurd h (by decide : byte '[' ≠ byte '\x7b'), nofun⟩
  | node isObject label first r =>
    cases isObject with
    | true => exact ⟨fun _ => rfl, fun _ => rfl⟩
    | false => exact ⟨fun h => absurd h (by decide : byte '[' ≠ byte '\x7b'), nofun⟩

/-- The scan of a request, after some of its members. -/
structure Recorded (bytes : List UInt8) (m : MemberScan) (es : List Entry) : Prop where
  namesDecode : m.namesDecode = allDecode names es
  request : ∀ i, (m.request i).map (slice bytes)
    = (lastNamed names (requestMembers.get i) es).map Tree.text
  haskellLogging : m.haskellLogging.map (slice bytes)
    = (lastNamed names "params" es).bind (logging names)
  inParams : m.inParams = false

theorem recorded_start : Recorded names bytes .start [] :=
  ⟨rfl, fun _ => rfl, rfl, rfl⟩

/-- The scan of a request at the value of one of its members. -/
structure AtMember (bytes : List UInt8) (m : MemberScan) (es : List Entry) (key : List UInt8) :
    Prop where
  member : ∀ i, m.member = some i ↔ decodeName names key = some (requestMembers.get i).toList
  namesDecode : m.namesDecode = (allDecode names es && (decodeName names key).isSome)
  request : ∀ i, (m.request i).map (slice bytes)
    = (lastNamed names (requestMembers.get i) es).map Tree.text
  haskellLogging : m.haskellLogging.map (slice bytes)
    = (lastNamed names "params" es).bind (logging names)
  inParams : m.inParams = false

theorem Recorded.key (key : List UInt8) (h : Recorded names bytes m es) :
    AtMember names bytes (m.key names 1 key) es key := by
  refine ⟨fun i => ?_, ?_, h.request, h.haskellLogging, h.inParams⟩
  · show (decodeName names key).bind memberOf = some i ↔ _
    rw [Option.bind_eq_some_iff]
    constructor
    · rintro ⟨decoded, hdecoded, hmember⟩
      rw [hdecoded, memberOf_eq_some.mp hmember]
    · intro hdecoded
      exact ⟨_, hdecoded, memberOf_eq_some.mpr rfl⟩
  · rw [← h.namesDecode]
    rfl

variable {pos : Nat} {t : Tree} {key rest : List UInt8}

theorem AtMember.request_ends (h : AtMember names bytes m es key)
    (hpos : bytes.drop pos = t.text ++ rest) (i : Fin 4) :
    (if m.member = some i then some (pos, pos + t.text.length) else m.request i).map (slice bytes)
      = (lastNamed names (requestMembers.get i) (es ++ [(key, t)])).map Tree.text := by
  rw [lastNamed_append]
  by_cases hi : decodeName names key = some (requestMembers.get i).toList
  · rw [if_pos hi, if_pos ((h.member i).mpr hi), Option.map_some, Option.map_some, slice_eq hpos]
  · rw [if_neg hi, if_neg (fun heq => hi ((h.member i).mp heq)), h.request]

theorem AtMember.names_end (h : AtMember names bytes m es key) :
    m.namesDecode = allDecode names (es ++ [(key, t)]) := by
  rw [allDecode_append, h.namesDecode]

/-- A member that is not the parameters. -/
theorem AtMember.other (h : AtMember names bytes m es key) (hparams : m.member ≠ some params)
    (hpos : bytes.drop pos = t.text ++ rest) :
    Recorded names bytes (t.record names 1 pos m) (es ++ [(key, t)]) := by
  have hstarts : m.valueStarts 1 pos t.firstByte = { m with memberStart := pos } := by
    rw [MemberScan.valueStarts, if_pos rfl, if_neg hparams]
  rw [Tree.record_of_idle names (by rw [hstarts]; exact .inr ⟨rfl, h.inParams⟩), hstarts,
    MemberScan.valueEnds, if_pos rfl, if_neg hparams]
  have hne : decodeName names key ≠ some "params".toList :=
    fun heq => hparams ((h.member params).mpr heq)
  refine ⟨h.names_end, h.request_ends names hpos, ?_, h.inParams⟩
  rw [lastNamed_append, if_neg hne]
  exact h.haskellLogging

theorem AtMember.lastNamed_params (h : AtMember names bytes m es key)
    (hparams : m.member = some params) :
    lastNamed names "params" (es ++ [(key, t)]) = some t := by
  rw [lastNamed_append]
  exact if_pos ((h.member params).mp hparams)

/-- Parameters that are not an object. -/
theorem AtMember.params_value (h : AtMember names bytes m es key)
    (hparams : m.member = some params) (ht : t.Valid) (hobject : t.isObject = false)
    (hpos : bytes.drop pos = t.text ++ rest) :
    Recorded names bytes (t.record names 1 pos m) (es ++ [(key, t)]) := by
  have hfirst : t.firstByte ≠ byte '\x7b' := by
    rw [Ne, firstByte_isObject ht, hobject]
    exact Bool.false_ne_true
  have hstarts : m.valueStarts 1 pos t.firstByte = { m with
      memberStart := pos
      inParams := false
      paramsNamesDecode := true
      paramsLogging := none } := by
    rw [MemberScan.valueStarts, if_pos rfl, if_pos hparams, decide_eq_false hfirst]
  rw [Tree.record_of_idle names (by rw [hstarts]; exact .inr ⟨rfl, rfl⟩), hstarts,
    MemberScan.valueEnds, if_pos rfl, if_pos hparams]
  refine ⟨h.names_end, h.request_ends names hpos, ?_, rfl⟩
  rw [h.lastNamed_params names hparams, Option.bind_some, logging, hobject,
    if_neg (by rintro ⟨hfalse, -⟩; cases hfalse)]
  rfl

/-- Parameters that are an object, the members of which are scanned too. -/
theorem AtMember.params_object (h : AtMember names bytes m es key)
    (hparams : m.member = some params) (ht : t.Valid) (hobject : t.isObject = true)
    (hpos : bytes.drop pos = t.text ++ rest) :
    Recorded names bytes (t.record names 1 pos m) (es ++ [(key, t)]) := by
  have hinside : InParams names bytes { m with memberStart := pos }
      (m.valueStarts 1 pos (byte '\x7b')) [] := by
    rw [MemberScan.valueStarts, if_pos rfl, if_pos hparams]
    exact ⟨rfl, rfl, rfl, rfl, rfl, rfl, rfl⟩
  obtain ⟨m', hm', hrecord⟩ := Tree.record_object names
    (fun _ _ _ name _ _ hpos _ h => InParams.step names name hpos h) ht hobject hpos hinside
  rw [hrecord, MemberScan.valueEnds, if_pos rfl, if_pos (hm'.member.trans hparams)]
  refine ⟨?_, fun i => ?_, ?_, rfl⟩
  · exact hm'.namesDecode.trans (h.names_end names)
  · show (if m'.member = some i then some (m'.memberStart, pos + t.text.length)
      else m'.request i).map _ = _
    rw [hm'.member, hm'.memberStart, hm'.request]
    exact h.request_ends names hpos i
  · rw [h.lastNamed_params names hparams, Option.bind_some, logging]
    show (m'.paramsLogging.filter fun _ => m'.inParams && m'.paramsNamesDecode).map _ = _
    rw [hm'.inParams, hm'.paramsNamesDecode, Bool.true_and]
    cases hdecode : allDecode names t.entries with
    | true =>
      rw [if_pos ⟨hobject, rfl⟩, ← hm'.paramsLogging]
      cases m'.paramsLogging <;> rfl
    | false =>
      rw [if_neg (by rintro ⟨-, hfalse⟩; cases hfalse)]
      cases m'.paramsLogging <;> rfl

theorem Recorded.step (name : List UInt8) (hpos : bytes.drop pos = t.text ++ rest) (ht : t.Valid)
    (h : Recorded names bytes m es) :
    Recorded names bytes (t.record names 1 pos (m.key names 1 (byte '"' :: name)))
      (es ++ [(byte '"' :: name, t)]) := by
  have hkey := h.key names (byte '"' :: name)
  by_cases hparams : (m.key names 1 (byte '"' :: name)).member = some params
  · cases hobject : t.isObject with
    | true => exact hkey.params_object names hparams ht hobject hpos
    | false => exact hkey.params_value names hparams ht hobject hpos
  · exact hkey.other names hparams hpos

/-- The scan of a whole object. -/
theorem recorded_object (ht : t.Valid) (hobject : t.isObject)
    (hpos : bytes.drop pos = t.text ++ rest) :
    Recorded names bytes (t.record names 0 pos .start) t.entries := by
  obtain ⟨m', hm', hrecord⟩ := Tree.record_object names (m := .start)
    (fun _ _ _ name _ _ hpos ht h => Recorded.step names name hpos ht h) ht hobject hpos
    (recorded_start names)
  rw [hrecord]
  exact hm'

end Requests

section Messages

open Scanner

variable {stream : List UInt8}

/-- What the scanner records of a message is what the message says. -/
theorem recorded_texts (m : Message stream) :
    Frame.texts ⟨stream, (scan names stream true start).2.valueStart,
      (scan names stream true start).2.recorded⟩ = requestTexts names m.tree := by
  obtain ⟨k, hscan⟩ := message_read names m
  have hpos : stream.drop m.blank.length = m.tree.text ++ m.rest :=
    (congrArg (List.drop _) m.text_eq).trans List.drop_left
  rw [hscan, Frame.texts, recorded, requestTexts]
  dsimp only
  cases hobject : m.tree.isObject with
  | true =>
    have hroot := (firstByte_isObject m.valid).mpr hobject
    have hm := recorded_object names m.valid hobject hpos
    rw [hroot, hm.namesDecode]
    cases hdecode : allDecode names m.tree.entries with
    | true =>
      rw [if_pos ⟨rfl, rfl⟩, if_pos ⟨rfl, rfl⟩, Option.map_some]
      simp only [hm.request, hm.haskellLogging]
    | false =>
      rw [if_neg (by rintro ⟨-, h⟩; cases h), if_neg (by rintro ⟨-, h⟩; cases h)]
      rfl
  | false =>
    have hroot : some m.tree.firstByte ≠ some (byte '\x7b') := by
      intro heq
      have htrue := (firstByte_isObject m.valid).mp (Option.some.inj heq)
      rw [hobject] at htrue
      cases htrue
    rw [if_neg (fun h => hroot h.1), if_neg (by rintro ⟨h, -⟩; cases h)]
    rfl

/-- The frame of a message holds its value and what it says; what follows stays in the buffer. -/
theorem take_message (m : Message stream) {frame : Frame} {buffer : List UInt8}
    (h : Frame.take stream (scan names stream true start).2 m.stop = (some frame, buffer)) :
    frame.value = m.tree.text ∧ frame.texts = requestTexts names m.tree ∧ buffer = m.rest := by
  have hstream : stream = (m.blank ++ m.tree.text) ++ m.rest := by
    rw [List.append_assoc]
    exact m.text_eq
  have hstop : m.stop = (m.blank ++ m.tree.text).length := List.length_append.symm
  have htake : stream.take m.stop = m.blank ++ m.tree.text := by
    rw [hstop]
    exact (congrArg (List.take _) hstream).trans List.take_left
  have hdrop : stream.drop m.stop = m.rest := by
    rw [hstop]
    exact (congrArg (List.drop _) hstream).trans List.drop_left
  obtain ⟨k, hscan⟩ := message_read names m
  -- The message alone is scanned to the same members.
  let alone : Message (m.blank ++ m.tree.text) :=
    ⟨m.blank, m.tree, [], by rw [List.append_nil], m.blank_all, m.valid, fun _ => nofun⟩
  have halone := recorded_texts names alone
  obtain ⟨k', hscan'⟩ := message_read names alone
  rw [hscan'] at halone
  unfold Frame.take at h
  split at h
  · cases h
    rw [htake, hdrop, hscan]
    exact ⟨List.drop_left, halone, rfl⟩
  · cases h

/-- However a stream is cut into chunks, the scanner finds what it finds in the whole stream;
it completes exactly a message, and what it records is what the message says. -/
theorem framing_of_stream (chunks : List (List UInt8)) :
    (∀ atEnd, feed names atEnd start [] chunks = scan names chunks.flatten atEnd start) ∧
      (∀ stop, (scan names chunks.flatten true start).1 = .complete stop ↔
        ∃ m : Message chunks.flatten, m.stop = stop) ∧
      ∀ m : Message chunks.flatten,
        Frame.texts ⟨chunks.flatten, (scan names chunks.flatten true start).2.valueStart,
          (scan names chunks.flatten true start).2.recorded⟩ = requestTexts names m.tree := by
  refine ⟨fun atEnd => feed_eq_scan names start [] chunks, fun stop => ⟨fun h => ?_, ?_⟩,
    recorded_texts names⟩
  · obtain ⟨m⟩ := message_of_complete names (Prod.ext h rfl)
    obtain ⟨k, hscan⟩ := message_read names m
    rw [hscan] at h
    exact ⟨m, Outcome.complete.inj h⟩
  · rintro ⟨m, rfl⟩
    obtain ⟨k, hscan⟩ := message_read names m
    rw [hscan]

end Messages

end KRust.Rpc.Framing
