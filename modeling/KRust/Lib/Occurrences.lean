import KRust.Lib.Utf8Ranges

/-!
The occurrences of a sequence in another that are found from the left without overlap. They cut
the other into segments; how many there are and what replacing them gives can be read off these.
Searching the UTF-8 of a text finds the occurrences in the text.
-/

namespace KRust.Lib.Occurrences

section Definitions

variable {α : Type} [DecidableEq α]

/-- Some items put before the first segment. -/
def prepend (items : List α) : List (List α) → List (List α)
  | [] => [items]
  | segment :: segments => (items ++ segment) :: segments

/-- What lies between the occurrences that are found from the left without overlap. -/
def segments (needle text : List α) : List (List α) :=
  match text with
  | [] => [[]]
  | a :: rest =>
    if needle ≠ [] ∧ needle <+: a :: rest then
      [] :: segments needle ((a :: rest).drop needle.length)
    else prepend [a] (segments needle rest)
termination_by text.length
decreasing_by
  · rename_i h
    have := List.length_pos_iff.mpr h.1
    rw [List.length_drop]
    simp only [List.length_cons]
    omega
  · simp

/-- `matches(needle).count()` -/
def count (needle text : List α) : Nat := (segments needle text).length - 1

/-- `replace` -/
def replace (needle new text : List α) : List α := new.intercalate (segments needle text)

/-- A position where a sequence occurs. -/
def OccursAt (needle text : List α) (p : Nat) : Prop := p ≤ text.length ∧ needle <+: text.drop p

instance (needle text : List α) (p : Nat) : Decidable (OccursAt needle text p) :=
  inferInstanceAs (Decidable (_ ∧ _))

end Definitions

section Recursion

variable {α : Type} [DecidableEq α] {needle text : List α}

theorem segments_ne_nil (needle text : List α) : segments needle text ≠ [] := by
  rw [segments.eq_def]
  split
  · simp
  · split
    · simp
    · unfold prepend
      split <;> simp

omit [DecidableEq α] in
theorem prepend_append (first second : List α) (segments : List (List α)) :
    prepend first (prepend second segments) = prepend (first ++ second) segments := by
  cases segments with
  | nil => rfl
  | cons segment segments => simp [prepend]

/-- Before the first occurrence nothing is cut. -/
theorem segments_append {front rest : List α}
    (h : ∀ p < front.length, ¬ needle <+: (front ++ rest).drop p) :
    segments needle (front ++ rest) = prepend front (segments needle rest) := by
  induction front with
  | nil =>
    obtain ⟨segment, segments, hcons⟩ := List.exists_cons_of_ne_nil (segments_ne_nil needle rest)
    rw [List.nil_append, hcons]
    rfl
  | cons a front ih =>
    have hhead : ¬ (needle ≠ [] ∧ needle <+: a :: (front ++ rest)) := fun hmatch =>
      h 0 (Nat.succ_pos _) hmatch.2
    rw [List.cons_append, segments, if_neg hhead, ih, prepend_append]
    · rfl
    · intro p hp
      exact h (p + 1) (Nat.succ_lt_succ hp)

theorem segments_of_prefix (hne : needle ≠ []) (rest : List α) :
    segments needle (needle ++ rest) = [] :: segments needle rest := by
  obtain ⟨a, items, rfl⟩ := List.exists_cons_of_ne_nil hne
  rw [List.cons_append, segments, if_pos ⟨hne, ⟨rest, rfl⟩⟩, ← List.cons_append, List.drop_left]

/-- The first occurrence cuts the text, and the rest after it is cut the same way. -/
theorem segments_of_first (hne : needle ≠ []) {p : Nat} (hp : OccursAt needle text p)
    (hfirst : ∀ q < p, ¬ OccursAt needle text q) :
    segments needle text =
      text.take p :: segments needle (text.drop (p + needle.length)) := by
  obtain ⟨hle, rest, hrest⟩ := hp
  have htext : text = text.take p ++ (needle ++ rest) := by
    rw [hrest, List.take_append_drop]
  have hdrop : text.drop (p + needle.length) = rest := by
    rw [← List.drop_drop, ← hrest, List.drop_left]
  have hbefore : ∀ q < (text.take p).length,
      ¬ needle <+: (text.take p ++ (needle ++ rest)).drop q := by
    intro q hq hmatch
    rw [List.length_take_of_le hle] at hq
    rw [← htext] at hmatch
    exact hfirst q hq ⟨by omega, hmatch⟩
  rw [hdrop]
  conv => lhs; rw [htext]
  rw [segments_append hbefore, segments_of_prefix hne, prepend, List.append_nil]

/-- A text without an occurrence is one segment. -/
theorem segments_of_none (h : ∀ p, ¬ OccursAt needle text p) : segments needle text = [text] := by
  have hbefore : ∀ q < text.length, ¬ needle <+: (text ++ []).drop q := by
    intro q hq hmatch
    rw [List.append_nil] at hmatch
    exact h q ⟨hq.le, hmatch⟩
  have hcut := segments_append hbefore
  rw [List.append_nil] at hcut
  rw [hcut, segments, prepend, List.append_nil]

theorem count_of_first (hne : needle ≠ []) {p : Nat} (hp : OccursAt needle text p)
    (hfirst : ∀ q < p, ¬ OccursAt needle text q) :
    count needle text = 1 + count needle (text.drop (p + needle.length)) := by
  have hpos := List.length_pos_iff.mpr
    (segments_ne_nil needle (text.drop (p + needle.length)))
  rw [count, segments_of_first hne hp hfirst, List.length_cons, count]
  omega

theorem count_of_none (h : ∀ p, ¬ OccursAt needle text p) : count needle text = 0 := by
  rw [count, segments_of_none h]
  rfl

theorem replace_of_first (hne : needle ≠ []) (new : List α) {p : Nat}
    (hp : OccursAt needle text p) (hfirst : ∀ q < p, ¬ OccursAt needle text q) :
    replace needle new text =
      text.take p ++ new ++ replace needle new (text.drop (p + needle.length)) := by
  obtain ⟨segment, segments, hcons⟩ := List.exists_cons_of_ne_nil
    (segments_ne_nil needle (text.drop (p + needle.length)))
  rw [replace, segments_of_first hne hp hfirst, replace, hcons]
  simp [List.intercalate]

theorem replace_of_none (new : List α) (h : ∀ p, ¬ OccursAt needle text p) :
    replace needle new text = text := by
  rw [replace, segments_of_none h]
  simp [List.intercalate]

omit [DecidableEq α] in
theorem intercalate_prepend (new front : List α) {segments : List (List α)} (h : segments ≠ []) :
    new.intercalate (prepend front segments) = front ++ new.intercalate segments := by
  obtain ⟨segment, segments, rfl⟩ := List.exists_cons_of_ne_nil h
  cases segments with
  | nil => simp [prepend, List.intercalate]
  | cons second segments => simp [prepend, List.intercalate]

omit [DecidableEq α] in
theorem intercalate_cons (new front : List α) {segments : List (List α)} (h : segments ≠ []) :
    new.intercalate (front :: segments) = front ++ new ++ new.intercalate segments := by
  obtain ⟨segment, segments, rfl⟩ := List.exists_cons_of_ne_nil h
  simp [List.intercalate]

/-- Replacing a sequence by itself changes nothing. -/
theorem replace_self (needle text : List α) : replace needle needle text = text := by
  unfold replace
  fun_induction segments needle text with
  | case1 => simp [List.intercalate]
  | case2 a rest h ih =>
    obtain ⟨-, after, hafter⟩ := h
    rw [intercalate_cons _ _ (segments_ne_nil _ _), ih, ← hafter, List.drop_left, List.nil_append]
  | case3 a rest h ih =>
    rw [intercalate_prepend _ _ (segments_ne_nil _ _), ih, List.singleton_append]

end Recursion

section Utf8

open Utf8

/-- A byte that continues the encoding of a character. -/
def isContinuation (byte : UInt8) : Bool := 0x80 ≤ byte.toNat && byte.toNat < 0xc0

/-- Only the first byte of an encoding starts one. -/
theorem encodeChar_bytes (c : Char) : ∃ first later, String.utf8EncodeChar c = first :: later ∧
    isContinuation first = false ∧ ∀ byte ∈ later, isContinuation byte = true := by
  have hvalid : c.toNat < 0x110000 := by
    have := c.valid
    simp only [UInt32.isValidChar, Nat.isValidChar] at this
    change c.val.toNat < _
    omega
  have hval : c.val.toNat = c.toNat := rfl
  unfold String.utf8EncodeChar
  dsimp only
  rw [hval]
  split
  · refine ⟨_, _, rfl, ?_, by simp⟩
    simp [isContinuation]
    omega
  · split
    · refine ⟨_, _, rfl, ?_, ?_⟩
      · simp [isContinuation]
        omega
      · simp [isContinuation]
        omega
    · split
      · refine ⟨_, _, rfl, ?_, ?_⟩
        · simp [isContinuation]
          omega
        · simp [isContinuation]
          omega
      · refine ⟨_, _, rfl, ?_, ?_⟩
        · simp [isContinuation]
          omega
        · simp [isContinuation]
          omega

/-- Bytes that continue an encoding start no occurrence of a text. -/
theorem segments_continuation {first : UInt8} {later : List UInt8} (bytes : List UInt8)
    {needle : List UInt8} (hfirst : isContinuation first = false)
    (hlater : ∀ byte ∈ later, isContinuation byte = true) :
    segments (first :: needle) (later ++ bytes) =
      prepend later (segments (first :: needle) bytes) := by
  apply segments_append
  intro p hp hmatch
  obtain ⟨rest, hrest⟩ := hmatch
  have hget := congrArg List.head? hrest
  rw [List.cons_append, List.head?_cons, List.head?_drop, List.getElem?_append_left hp] at hget
  rw [hlater first (List.mem_of_getElem? hget.symm)] at hfirst
  cases hfirst

/-- The encoding of a text begins that of another where the text begins the other. -/
theorem encode_prefix_iff {needle text : List Char} :
    encode needle <+: encode text ↔ needle <+: text := by
  constructor
  · intro h
    induction needle generalizing text with
    | nil => exact List.nil_prefix
    | cons c needle ih =>
      obtain ⟨rest, hrest⟩ := h
      rw [encode_cons, List.append_assoc] at hrest
      cases text with
      | nil => exact absurd (List.append_eq_nil_iff.mp hrest).1 (encodeChar_ne_nil c)
      | cons d text =>
        have hnext := next_encodeChar c (encode needle ++ rest)
        rw [hrest, encode_cons, next_encodeChar] at hnext
        obtain ⟨rfl, htail⟩ := Prod.mk.inj (Option.some.inj hnext)
        exact List.cons_prefix_cons.mpr ⟨rfl, ih ⟨rest, htail.symm⟩⟩
  · rintro ⟨rest, rfl⟩
    rw [encode_append]
    exact List.prefix_append _ _

theorem prepend_map_encode (front : List Char) (segments : List (List Char)) :
    prepend (encode front) (segments.map encode) = (prepend front segments).map encode := by
  cases segments with
  | nil => rfl
  | cons segment segments => simp [prepend, encode_append]

/-- The UTF-8 of a text is cut where the text is. -/
theorem segments_encode {needle : List Char} (hne : needle ≠ []) (text : List Char) :
    segments (encode needle) (encode text) = (segments needle text).map encode := by
  obtain ⟨n, needle, rfl⟩ := List.exists_cons_of_ne_nil hne
  obtain ⟨first, later, hfirst, hstart, -⟩ := encodeChar_bytes n
  have hencode : encode (n :: needle) = first :: (later ++ encode needle) := by
    rw [encode_cons, hfirst, List.cons_append]
  have hneBytes : encode (n :: needle) ≠ [] := by simp [hencode]
  fun_induction segments (n :: needle) text with
  | case1 => rw [encode_nil, segments]; rfl
  | case2 a rest h ih =>
    obtain ⟨-, after, hafter⟩ := h
    rw [← hafter, List.drop_left] at ih
    rw [← hafter, encode_append, segments_of_prefix hneBytes, ih, List.drop_left]
    rfl
  | case3 a rest h ih =>
    obtain ⟨byte, bytes, ha, -, hbytes⟩ := encodeChar_bytes a
    have hmatch : ¬ (encode (n :: needle) ≠ [] ∧ encode (n :: needle) <+: encode (a :: rest)) :=
      fun hmatch => h ⟨hne, encode_prefix_iff.mp hmatch.2⟩
    have htext : encode (a :: rest) = byte :: (bytes ++ encode rest) := by
      rw [encode_cons, ha, List.cons_append]
    rw [htext] at hmatch
    rw [htext, segments, if_neg hmatch]
    rw [hencode, segments_continuation _ hstart hbytes, ← hencode, ih, prepend_append,
      List.singleton_append, ← ha, ← prepend_map_encode]
    simp

theorem count_encode {needle : List Char} (hne : needle ≠ []) (text : List Char) :
    count (encode needle) (encode text) = count needle text := by
  rw [count, segments_encode hne, List.length_map, count]

theorem intercalate_map_encode (new : List Char) (segments : List (List Char)) :
    (encode new).intercalate (segments.map encode) = encode (new.intercalate segments) := by
  induction segments with
  | nil => rfl
  | cons segment segments ih =>
    by_cases hnil : segments = []
    · simp [hnil, List.intercalate]
    · have hmap : segments.map encode ≠ [] := by simpa using hnil
      rw [List.map_cons, intercalate_cons _ _ hmap, ih, intercalate_cons _ _ hnil, encode_append,
        encode_append]

theorem replace_encode {needle : List Char} (hne : needle ≠ []) (new text : List Char) :
    replace (encode needle) (encode new) (encode text) = encode (replace needle new text) := by
  rw [replace, segments_encode hne, replace, intercalate_map_encode]

end Utf8

end KRust.Lib.Occurrences
