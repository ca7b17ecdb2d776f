import KRust.Kore.Document
import KRust.Lib.Worklist
import Mathlib.Data.Option.NAry

/-!
The renderer of documents as it pulls ops from an iterator, with a queue of those that the
look-ahead has read. It writes what the renderer over the whole list writes, and what the layout in
two passes over the whole document does, and the queue holds no more than a line.
-/

namespace KRust.Kore

open KRust.Lib

section Definitions

/-- The ops that were read ahead, and those that the source still gives. -/
structure OpStream where
  lookahead : List Op
  source : List Op

namespace OpStream

/-- The ops that are left, in order. -/
def ops (stream : OpStream) : List Op := stream.lookahead ++ stream.source

/-- The next op to render: of the queue, or else of the source. -/
def next (stream : OpStream) : Option (Op × OpStream) :=
  match stream.lookahead, stream.source with
  | op :: lookahead, source => some (op, ⟨lookahead, source⟩)
  | [], op :: source => some (op, ⟨[], source⟩)
  | [], [] => none

/-- The op of the queue at an index; behind its end, the next op of the source is queued. -/
def read (stream : OpStream) (index : Nat) : Option (Op × OpStream) :=
  match stream.lookahead[index]?, stream.source with
  | some op, _ => some (op, stream)
  | none, op :: source => some (op, ⟨stream.lookahead ++ [op], source⟩)
  | none, [] => none

end OpStream

/-- The counters of `fits`, and the ops it reads. -/
structure Scan where
  remaining : UInt64
  depth : Nat
  index : Nat
  stream : OpStream

/-- `none` is the stop at ops without their group end. -/
def Scan.turn (scan : Scan) : Option (Bool × OpStream) ⊕ Scan :=
  match scan.stream.read scan.index with
  | none => .inl none
  | some (op, stream) =>
    match op with
    | .hardLine => .inl (some (false, stream))
    | .nestStart _ | .nestEnd _ => .inr ⟨scan.remaining, scan.depth, scan.index + 1, stream⟩
    | .groupStart => .inr ⟨scan.remaining, scan.depth + 1, scan.index + 1, stream⟩
    | .groupEnd =>
      match scan.depth with
      | 0 => .inl (some (true, stream))
      | depth + 1 => .inr ⟨scan.remaining, depth, scan.index + 1, stream⟩
    | .text flat | .line flat =>
      if UInt64.ofNat flat.length ≤ scan.remaining then
        .inr ⟨scan.remaining - UInt64.ofNat flat.length, scan.depth, scan.index + 1, stream⟩
      else .inl (some (false, stream))

end Definitions

section Reading

namespace OpStream

theorem next_some {stream after : OpStream} {op : Op} (h : stream.next = some (op, after)) :
    stream.ops = op :: after.ops ∧ after.lookahead = stream.lookahead.tail := by
  obtain ⟨lookahead, source⟩ := stream
  cases lookahead with
  | cons first lookahead =>
    cases h
    exact ⟨rfl, rfl⟩
  | nil =>
    cases source with
    | nil => cases h
    | cons first source =>
      cases h
      exact ⟨rfl, rfl⟩

theorem next_none {stream : OpStream} (h : stream.next = none) : stream.ops = [] := by
  obtain ⟨lookahead, source⟩ := stream
  cases lookahead with
  | cons => cases h
  | nil =>
    cases source with
    | nil => rfl
    | cons => cases h

/-- An op is read in the queue, or it is the first of the source and is queued. -/
theorem read_some {stream after : OpStream} {index : Nat} {op : Op}
    (h : stream.read index = some (op, after)) :
    (stream.lookahead[index]? = some op ∧ after = stream) ∨
      (stream.lookahead.length ≤ index ∧ stream.source = op :: after.source ∧
        after.lookahead = stream.lookahead ++ [op]) := by
  obtain ⟨lookahead, source⟩ := stream
  rw [read] at h
  cases hqueued : lookahead[index]? with
  | some queued =>
    simp only [hqueued] at h
    cases h
    exact .inl ⟨rfl, rfl⟩
  | none =>
    cases source with
    | nil => simp [hqueued] at h
    | cons first source =>
      simp only [hqueued] at h
      cases h
      exact .inr ⟨List.getElem?_eq_none_iff.mp hqueued, rfl, rfl⟩

theorem read_ops {stream after : OpStream} {index : Nat} {op : Op}
    (h : stream.read index = some (op, after)) : after.ops = stream.ops := by
  rcases read_some h with ⟨-, rfl⟩ | ⟨-, hsource, hqueue⟩
  · rfl
  · rw [ops, ops, hqueue, hsource, List.append_assoc, List.singleton_append]

/-- What is read up to the end of the queue is the op there, and the queue holds it then. -/
theorem read_at {stream after : OpStream} {index : Nat} {op : Op}
    (h : stream.read index = some (op, after)) (hindex : index ≤ stream.lookahead.length) :
    after.lookahead[index]? = some op ∧ after.lookahead.take index = stream.lookahead.take index ∧
      (after = stream ∨ after.lookahead.length = index + 1) := by
  rcases read_some h with ⟨hqueued, rfl⟩ | ⟨hend, -, hqueue⟩
  · exact ⟨hqueued, rfl, .inl rfl⟩
  · have heq : stream.lookahead.length = index := Nat.le_antisymm hend hindex
    refine ⟨?_, ?_, .inr ?_⟩
    · rw [hqueue, ← heq, List.getElem?_concat_length]
    · rw [hqueue, ← heq, List.take_left', List.take_length]
      rfl
    · rw [hqueue, List.length_append, heq]
      rfl

theorem read_none {stream : OpStream} {index : Nat} (h : stream.read index = none) :
    stream.ops.drop index = [] := by
  obtain ⟨lookahead, source⟩ := stream
  rw [read] at h
  cases hqueued : lookahead[index]? with
  | some queued => simp [hqueued] at h
  | none =>
    cases source with
    | cons => simp [hqueued] at h
    | nil =>
      rw [ops, List.append_nil]
      exact List.drop_eq_nil_iff.mpr (List.getElem?_eq_none_iff.mp hqueued)

theorem drop_ops {stream after : OpStream} {index : Nat} {op : Op}
    (h : stream.read index = some (op, after)) (hindex : index ≤ stream.lookahead.length) :
    stream.ops.drop index = op :: after.ops.drop (index + 1) := by
  obtain ⟨hop, -, -⟩ := read_at h hindex
  have hlt : index < after.lookahead.length := (List.getElem?_eq_some_iff.mp hop).1
  have hat : after.ops[index]? = some op := by
    rw [ops, List.getElem?_append_left hlt]
    exact hop
  rw [← read_ops h]
  obtain ⟨hbound, hget⟩ := List.getElem?_eq_some_iff.mp hat
  rw [List.drop_eq_getElem_cons hbound, hget]

end OpStream

end Reading

section Scanning

/-- What a turn of the look-ahead that goes on has done. -/
theorem Scan.turn_inr {scan after : Scan} (h : scan.turn = .inr after) :
    ∃ op, scan.stream.read scan.index = some (op, after.stream) ∧ after.index = scan.index + 1 ∧
      ∀ ops, fits scan.remaining scan.depth (op :: ops) =
        fits after.remaining after.depth ops := by
  obtain ⟨remaining, depth, index, stream⟩ := scan
  rw [turn] at h
  split at h
  · cases h
  · next op next hread =>
    have hread : stream.read index = some (op, next) := hread
    cases op with
    | hardLine => cases h
    | nestStart amount | nestEnd amount | groupStart =>
      cases h
      exact ⟨_, hread, rfl, fun ops => rfl⟩
    | groupEnd =>
      cases depth with
      | zero => cases h
      | succ depth =>
        cases h
        exact ⟨_, hread, rfl, fun ops => rfl⟩
    | text flat | line flat =>
      dsimp only at h
      split at h
      · next hle =>
        cases h
        refine ⟨_, hread, rfl, fun ops => ?_⟩
        rw [fits, if_pos hle]
      · cases h

theorem Scan.turn_inl {scan : Scan} {result : Option (Bool × OpStream)}
    (h : scan.turn = .inl result) :
    (result = none ∧ scan.stream.read scan.index = none) ∨
      ∃ op answer after, result = some (answer, after) ∧
        scan.stream.read scan.index = some (op, after) ∧
        ∀ ops, fits scan.remaining scan.depth (op :: ops) = some answer := by
  obtain ⟨remaining, depth, index, stream⟩ := scan
  rw [turn] at h
  split at h
  · next hread =>
    cases h
    exact .inl ⟨rfl, hread⟩
  · next op next hread =>
    have hread : stream.read index = some (op, next) := hread
    cases op with
    | hardLine =>
      cases h
      exact .inr ⟨_, _, _, rfl, hread, fun ops => rfl⟩
    | nestStart amount | nestEnd amount | groupStart => cases h
    | groupEnd =>
      cases depth with
      | zero =>
        cases h
        exact .inr ⟨_, _, _, rfl, hread, fun ops => rfl⟩
      | succ depth => cases h
    | text flat | line flat =>
      dsimp only at h
      split at h
      · cases h
      · next hnot =>
        cases h
        refine .inr ⟨_, _, _, rfl, hread, fun ops => ?_⟩
        rw [fits, if_neg hnot]

theorem Scan.turn_weight {scan after : Scan} (h : scan.turn = .inr after) :
    2 * after.stream.source.length + (after.stream.lookahead.length - after.index) <
      2 * scan.stream.source.length + (scan.stream.lookahead.length - scan.index) := by
  obtain ⟨op, hread, hindex, -⟩ := turn_inr h
  rcases OpStream.read_some hread with ⟨hqueued, hsame⟩ | ⟨-, hsource, hqueue⟩
  · have hlt := (List.getElem?_eq_some_iff.mp hqueued).1
    rw [hsame, hindex]
    omega
  · rw [hqueue, hsource, hindex, List.length_cons, List.length_append, List.length_singleton]
    omega

/-- `fits` -/
def scanLoop : Loop Scan (Option (Bool × OpStream)) where
  turn := Scan.turn
  ends := ⟨_, fun _ _ => Scan.turn_weight⟩

/-- The look-ahead over the queue and the source answers as over the list of what is left, and
leaves the ops in order. -/
theorem scan_spec (scan : Scan) (hindex : scan.index ≤ scan.stream.lookahead.length) :
    (scanLoop.run scan).map Prod.fst =
        fits scan.remaining scan.depth (scan.stream.ops.drop scan.index) ∧
      ∀ found ∈ scanLoop.run scan, found.2.ops = scan.stream.ops := by
  revert hindex
  refine scanLoop.run_spec
    (Q := fun scan result => scan.index ≤ scan.stream.lookahead.length →
      result.map Prod.fst = fits scan.remaining scan.depth (scan.stream.ops.drop scan.index) ∧
        ∀ found ∈ result, found.2.ops = scan.stream.ops) ?_ ?_ scan
  · intro scan result hturn hindex
    rcases Scan.turn_inl hturn with ⟨rfl, hread⟩ | ⟨op, answer, after, rfl, hread, hfits⟩
    · rw [OpStream.read_none hread]
      refine ⟨rfl, fun found h => ?_⟩
      cases h
    · rw [OpStream.drop_ops hread hindex, hfits]
      refine ⟨rfl, fun found h => ?_⟩
      cases h
      exact OpStream.read_ops hread
  · intro scan after result hturn ih hindex
    obtain ⟨op, hread, hnext, hfits⟩ := Scan.turn_inr hturn
    obtain ⟨hop, -, -⟩ := OpStream.read_at hread hindex
    have hlt := (List.getElem?_eq_some_iff.mp hop).1
    obtain ⟨hanswer, hops⟩ := ih (by omega)
    rw [OpStream.drop_ops hread hindex, hfits, hanswer, hnext]
    exact ⟨rfl, fun found h => (hops found h).trans (OpStream.read_ops hread)⟩

end Scanning

section Rendering

/-- The renderer between two ops. -/
structure Rendering where
  state : RenderState
  stream : OpStream
  output : List Char

/-- The text and the state after one op, and the ops as the look-ahead leaves them. -/
def RenderState.stepStream (width : UInt64) (state : RenderState) (op : Op) (stream : OpStream) :
    Option (List Char × RenderState × OpStream) :=
  match op with
  | .groupStart =>
    if state.modes.head? = some .flat then some ([], (state.push .flat).2, stream)
    else if state.column ≤ width then
      (scanLoop.run ⟨width - state.column, 0, 0, stream⟩).map fun found =>
        ([], (state.push (if found.1 then .flat else .broken)).2, found.2)
    else some ([], (state.push .broken).2, stream)
  | op => (state.step width op []).map fun found => (found.1, found.2, stream)

def Rendering.turn (width : UInt64) (rendering : Rendering) :
    Option (List Char) ⊕ Rendering :=
  match rendering.stream.next with
  | none => .inl (some rendering.output)
  | some (op, stream) =>
    match rendering.state.stepStream width op stream with
    | none => .inl none
    | some (text, state, stream) => .inr ⟨state, stream, rendering.output ++ text⟩

/-- A step over the queue is the step over the list of what is left. -/
theorem stepStream_spec (width : UInt64) (state : RenderState) (op : Op) (stream : OpStream) :
    (state.stepStream width op stream).map (fun found => (found.1, found.2.1)) =
        state.step width op stream.ops ∧
      ∀ found ∈ state.stepStream width op stream, found.2.2.ops = stream.ops := by
  cases op with
  | groupStart =>
    rw [RenderState.stepStream, RenderState.step]
    split
    · refine ⟨rfl, fun found h => ?_⟩
      cases h
      rfl
    · split
      · obtain ⟨hanswer, hops⟩ := scan_spec ⟨width - state.column, 0, 0, stream⟩ (Nat.zero_le _)
        rw [List.drop_zero] at hanswer
        constructor
        · rw [← hanswer, Option.map_map, Option.map_map]
          rfl
        · intro found h
          obtain ⟨inner, hinner, rfl⟩ := Option.map_eq_some_iff.mp h
          exact hops inner hinner
      · refine ⟨rfl, fun found h => ?_⟩
        cases h
        rfl
  | line flat =>
    simp only [RenderState.stepStream, RenderState.step]
    split
    · refine ⟨rfl, fun found h => ?_⟩
      cases h
      rfl
    · refine ⟨rfl, fun found h => ?_⟩
      cases h
      rfl
  | _ =>
    refine ⟨rfl, fun found h => ?_⟩
    cases h
    rfl

theorem Rendering.turn_inr {width : UInt64} {rendering after : Rendering}
    (h : rendering.turn width = .inr after) :
    ∃ op stream text, rendering.stream.next = some (op, stream) ∧
      rendering.state.stepStream width op stream = some (text, after.state, after.stream) ∧
        after.output = rendering.output ++ text := by
  rw [turn] at h
  split at h
  · cases h
  · next op stream hnext =>
    split at h
    · cases h
    · next text state stream' hstep =>
      cases h
      exact ⟨op, stream, text, hnext, hstep, rfl⟩

theorem Rendering.turn_weight {width : UInt64} {rendering after : Rendering}
    (h : rendering.turn width = .inr after) :
    after.stream.ops.length < rendering.stream.ops.length := by
  obtain ⟨op, stream, text, hnext, hstep, -⟩ := turn_inr h
  rw [(OpStream.next_some hnext).1, (stepStream_spec _ _ _ _).2 _ hstep]
  exact Nat.lt_succ_self _

def renderLoop (width : UInt64) : Loop Rendering (Option (List Char)) where
  turn := Rendering.turn width
  ends := ⟨_, fun _ _ => Rendering.turn_weight⟩

def Rendering.start (ops : List Op) (mode : RenderMode) : Rendering :=
  ⟨⟨0, 0, [mode.base]⟩, ⟨[], ops⟩, []⟩

/-- `render` over an iterator. -/
def renderStreamed (ops : List Op) (mode : RenderMode) (width : UInt64) : Option (List Char) :=
  (renderLoop width).run (.start ops mode)

/-- The queue loses no op and changes no decision. -/
theorem renderStreamed_eq (ops : List Op) (mode : RenderMode) (width : UInt64) :
    renderStreamed ops mode width = render ops mode width := by
  have hrun := (renderLoop width).run_spec
    (Q := fun rendering result => result =
      (renderFrom width rendering.state rendering.stream.ops).map (rendering.output ++ ·))
    ?_ ?_ (.start ops mode)
  · rw [renderStreamed, hrun, render]
    exact Option.map_id'
  · intro rendering result hturn
    change rendering.turn width = .inl result at hturn
    rw [Rendering.turn] at hturn
    split at hturn
    · next hnext =>
      cases hturn
      rw [OpStream.next_none hnext, renderFrom, Option.map_some, List.append_nil]
    · next op stream hnext =>
      split at hturn
      · next hstep =>
        cases hturn
        have hspec := (stepStream_spec width rendering.state op stream).1
        rw [hstep] at hspec
        rw [(OpStream.next_some hnext).1, renderFrom, ← hspec]
        rfl
      · cases hturn
  · intro rendering after result hturn ih
    obtain ⟨op, stream, text, hnext, hstep, houtput⟩ := Rendering.turn_inr hturn
    obtain ⟨hspec, hops⟩ := stepStream_spec width rendering.state op stream
    rw [hstep] at hspec
    rw [ih, (OpStream.next_some hnext).1, renderFrom, ← hspec, hops _ hstep, houtput]
    simp only [Option.map_some, Option.map_map, Function.comp_def, List.append_assoc]

end Rendering

section Sizes

/-- The columns that an op takes where it is laid out flat. -/
def Op.flatWidth : Op → Nat
  | .text value | .line value => value.length
  | _ => 0

/-- What an op can add to the column or to the indentation. -/
def Op.size : Op → Nat
  | .nestStart amount => amount.toNat
  | op => op.flatWidth

def totalSize (ops : List Op) : Nat := (ops.map Op.size).sum

@[simp] theorem totalSize_nil : totalSize [] = 0 := rfl

@[simp] theorem totalSize_cons (op : Op) (ops : List Op) :
    totalSize (op :: ops) = op.size + totalSize ops := List.sum_cons

@[simp] theorem totalSize_append (ops rest : List Op) :
    totalSize (ops ++ rest) = totalSize ops + totalSize rest := by
  rw [totalSize, List.map_append, List.sum_append]
  rfl

/-- The flat width of ops without a hard line. -/
def flatOf : List Op → Option Nat
  | [] => some 0
  | .hardLine :: _ => none
  | op :: ops => (flatOf ops).map (op.flatWidth + ·)

/-- Ops whose nests and groups end among them, as those of a document do. -/
inductive Nested : List Op → Prop where
  | nil : Nested []
  | text (value : List Char) {ops : List Op} (h : Nested ops) : Nested (.text value :: ops)
  | line (flat : List Char) {ops : List Op} (h : Nested ops) : Nested (.line flat :: ops)
  | hardLine {ops : List Op} (h : Nested ops) : Nested (.hardLine :: ops)
  | nest (amount : UInt64) {inner ops : List Op} (hinner : Nested inner) (h : Nested ops) :
    Nested (.nestStart amount :: (inner ++ .nestEnd amount :: ops))
  | group {inner ops : List Op} (hinner : Nested inner) (h : Nested ops) :
    Nested (.groupStart :: (inner ++ .groupEnd :: ops))

/-- A document whose texts and nests are counted in a machine word. -/
structure Document where
  ops : List Op
  nested : Nested ops
  small : totalSize ops < UInt64.size

theorem Nested.append {ops rest : List Op} (h : Nested ops) (hrest : Nested rest) :
    Nested (ops ++ rest) := by
  induction h with
  | nil => exact hrest
  | text value _ ih => exact .text value ih
  | line flat _ ih => exact .line flat ih
  | hardLine _ ih => exact .hardLine ih
  | nest amount hinner _ _ ih =>
    rw [List.cons_append, List.append_assoc]
    exact .nest amount hinner ih
  | group hinner _ _ ih =>
    rw [List.cons_append, List.append_assoc]
    exact .group hinner ih

/-- The documents that the printer builds are nested. -/
theorem nested_text (value : List Char) : Nested (Doc.text value) := .text value .nil

theorem nested_line : Nested Doc.line := .line _ .nil

theorem nested_lineBreak : Nested Doc.lineBreak := .line _ .nil

theorem nested_concat {documents : List Doc} (h : ∀ doc ∈ documents, Nested doc) :
    Nested (Doc.concat documents) := by
  induction documents with
  | nil => exact .nil
  | cons doc documents ih =>
    rw [List.forall_mem_cons] at h
    exact h.1.append (ih h.2)

theorem nested_nest (amount : UInt64) {doc : Doc} (h : Nested doc) :
    Nested (Doc.nest amount doc) := by
  rw [Doc.nest]
  split
  · exact h
  · exact .nest amount h .nil

theorem nested_group {doc : Doc} (h : Nested doc) : Nested (Doc.group doc) := by
  rw [Doc.group]
  split
  · exact h
  · exact .group h .nil

end Sizes

section Flat

/-- The width of two parts, where both have one. -/
abbrev plus (first second : Option Nat) : Option Nat := Option.map₂ (· + ·) first second

theorem flatOf_append (ops rest : List Op) :
    flatOf (ops ++ rest) = plus (flatOf ops) (flatOf rest) := by
  induction ops with
  | nil => cases h : flatOf rest <;> simp [flatOf, h]
  | cons op ops ih =>
    cases op with
    | hardLine => rfl
    | _ =>
      simp only [List.cons_append, flatOf, ih]
      cases flatOf ops <;> cases flatOf rest <;> simp [Nat.add_assoc]

theorem flatOf_le {ops : List Op} {width : Nat} (h : flatOf ops = some width) :
    width ≤ totalSize ops := by
  induction ops generalizing width with
  | nil =>
    cases h
    exact le_rfl
  | cons op ops ih =>
    have hstep : ∀ inner, flatOf ops = some inner →
        op.flatWidth + inner ≤ totalSize (op :: ops) := by
      intro inner hinner
      have hle : op.flatWidth ≤ op.size := by
        cases op <;> simp [Op.size, Op.flatWidth]
      rw [totalSize_cons]
      exact Nat.add_le_add hle (ih hinner)
    cases op with
    | hardLine => cases h
    | _ =>
      obtain ⟨inner, hinner, rfl⟩ := Option.map_eq_some_iff.mp h
      exact hstep inner hinner

theorem ofNat_le_iff {n : Nat} (h : n < UInt64.size) {w : UInt64} :
    UInt64.ofNat n ≤ w ↔ n ≤ w.toNat := by
  rw [UInt64.le_iff_toNat_le, UInt64.toNat_ofNat_of_lt' h]

theorem toNat_sub_ofNat {n : Nat} {w : UInt64} (h : n ≤ w.toNat) :
    (w - UInt64.ofNat n).toNat = w.toNat - n := by
  have hlt : n < UInt64.size := Nat.lt_of_le_of_lt h w.toNat_lt
  rw [UInt64.toNat_sub_of_le _ _ ((ofNat_le_iff hlt).mpr h), UInt64.toNat_ofNat_of_lt' hlt]

theorem sub_sub_word (a b c : UInt64) : a - b - c = a - (b + c) := by
  rw [UInt64.sub_eq_add_neg a (b + c), UInt64.neg_add, UInt64.sub_eq_add_neg (-b) c,
    ← UInt64.add_assoc, UInt64.sub_eq_add_neg (a - b) c, UInt64.sub_eq_add_neg a b]

/-- The look-ahead behind ops of some flat width. -/
def fitsBehind (remaining : UInt64) (depth : Nat) (flat : Option Nat) (rest : List Op) :
    Option Bool :=
  match flat with
  | some width =>
    if width ≤ remaining.toNat then fits (remaining - UInt64.ofNat width) depth rest
    else some false
  | none => some false

theorem fitsBehind_zero (remaining : UInt64) (depth : Nat) (rest : List Op) :
    fitsBehind remaining depth (some 0) rest = fits remaining depth rest := by
  rw [fitsBehind, if_pos (Nat.zero_le _)]
  exact congrArg (fits · depth rest) (UInt64.sub_zero remaining)

/-- Ops one after the other take the sum of their widths. -/
theorem fitsBehind_plus {depth depth' : Nat} {ops rest : List Op} {second : Option Nat}
    (h : ∀ remaining, fits remaining depth ops = fitsBehind remaining depth' second rest)
    (remaining : UInt64) (first : Option Nat) :
    fitsBehind remaining depth first ops =
      fitsBehind remaining depth' (plus first second) rest := by
  cases first with
  | none => rfl
  | some width =>
    cases second with
    | none =>
      have hnone : ∀ remaining, fits remaining depth ops = some false := h
      simp [fitsBehind, hnone]
    | some width' =>
      change fitsBehind remaining depth (some width) ops =
        fitsBehind remaining depth' (some (width + width')) rest
      simp only [fitsBehind] at h ⊢
      by_cases hle : width ≤ remaining.toNat
      · have hsum : width' ≤ remaining.toNat - width ↔ width + width' ≤ remaining.toNat := by
          omega
        rw [if_pos hle, h, toNat_sub_ofNat hle]
        simp only [hsum, UInt64.ofNat_add, sub_sub_word]
      · have hgt : ¬width + width' ≤ remaining.toNat := by omega
        rw [if_neg hle, if_neg hgt]

theorem fits_text {value : List Char} (h : value.length < UInt64.size) (remaining : UInt64)
    (depth : Nat) (ops : List Op) : fits remaining depth (.text value :: ops) =
      fitsBehind remaining depth (some value.length) ops := by
  simp only [fits, fitsBehind, ofNat_le_iff h]

theorem fits_line {flat : List Char} (h : flat.length < UInt64.size) (remaining : UInt64)
    (depth : Nat) (ops : List Op) : fits remaining depth (.line flat :: ops) =
      fitsBehind remaining depth (some flat.length) ops := by
  simp only [fits, fitsBehind, ofNat_le_iff h]

theorem flatOf_nest (amount : UInt64) (inner ops : List Op) :
    flatOf (.nestStart amount :: (inner ++ .nestEnd amount :: ops)) =
      plus (flatOf inner) (flatOf ops) := by
  simp [flatOf, Op.flatWidth, flatOf_append]

theorem flatOf_group (inner ops : List Op) :
    flatOf (.groupStart :: (inner ++ .groupEnd :: ops)) = plus (flatOf inner) (flatOf ops) := by
  simp [flatOf, Op.flatWidth, flatOf_append]

/-- The look-ahead over nested ops reads their flat width. -/
theorem fits_nested {ops : List Op} (h : Nested ops) (hsmall : totalSize ops < UInt64.size)
    (remaining : UInt64) (depth : Nat) (rest : List Op) :
    fits remaining depth (ops ++ rest) = fitsBehind remaining depth (flatOf ops) rest := by
  induction h generalizing remaining depth rest with
  | nil => exact (fitsBehind_zero remaining depth rest).symm
  | @text value ops _ ih =>
    simp only [totalSize_cons, Op.size, Op.flatWidth] at hsmall
    rw [List.cons_append, fits_text (by omega),
      fitsBehind_plus (fun remaining => ih (by omega) remaining depth rest)]
    congr 1
  | @line flat ops _ ih =>
    simp only [totalSize_cons, Op.size, Op.flatWidth] at hsmall
    rw [List.cons_append, fits_line (by omega),
      fitsBehind_plus (fun remaining => ih (by omega) remaining depth rest)]
    congr 1
  | hardLine => rfl
  | @nest amount inner ops _ _ ihinner ih =>
    simp only [totalSize_cons, totalSize_append] at hsmall
    have hops : ∀ remaining, fits remaining depth (.nestEnd amount :: (ops ++ rest)) =
        fitsBehind remaining depth (flatOf ops) rest :=
      fun remaining => ih (by omega) remaining depth rest
    rw [List.cons_append, List.append_assoc, List.cons_append, flatOf_nest,
      ← fitsBehind_plus hops]
    exact ihinner (by omega) remaining depth _
  | @group inner ops _ _ ihinner ih =>
    simp only [totalSize_cons, totalSize_append] at hsmall
    have hops : ∀ remaining, fits remaining (depth + 1) (.groupEnd :: (ops ++ rest)) =
        fitsBehind remaining depth (flatOf ops) rest :=
      fun remaining => ih (by omega) remaining depth rest
    rw [List.cons_append, List.append_assoc, List.cons_append, flatOf_group,
      ← fitsBehind_plus hops]
    exact ihinner (by omega) remaining (depth + 1) _

end Flat

section TwoPasses

/-- `checked_add` of widths that may be missing. -/
def addWidths : Option UInt64 → Option UInt64 → Option UInt64
  | some total, some width =>
    if total.toNat + width.toNat < UInt64.size then some (total + width) else none
  | _, _ => none

/-- The widths of the groups found so far, by the indexes of their starts, and the starts and
totals of the open groups. -/
structure FlatWidths where
  result : List (Option UInt64)
  stack : List (Nat × Option UInt64)

def addToGroup (width : Option UInt64) : List (Nat × Option UInt64) → List (Nat × Option UInt64)
  | [] => []
  | (start, total) :: stack => (start, addWidths total width) :: stack

def FlatWidths.step (widths : FlatWidths) (index : Nat) (op : Op) : Option FlatWidths :=
  match op with
  | .text flat | .line flat =>
    some ⟨widths.result, addToGroup (some (UInt64.ofNat flat.length)) widths.stack⟩
  | .hardLine => some ⟨widths.result, addToGroup none widths.stack⟩
  | .nestStart _ | .nestEnd _ => some ⟨widths.result, addToGroup (some 0) widths.stack⟩
  | .groupStart => some ⟨widths.result, (index, some 0) :: widths.stack⟩
  | .groupEnd =>
    match widths.stack with
    | [] => none
    | (start, width) :: stack => some ⟨widths.result.set start width, addToGroup width stack⟩

def FlatWidths.run (widths : FlatWidths) (index : Nat) : List Op → Option FlatWidths
  | [] => some widths
  | op :: ops => (widths.step index op).bind fun widths => widths.run (index + 1) ops

/-- `whole_document_flat_widths` -/
def wholeDocumentFlatWidths (ops : List Op) : Option (List (Option UInt64)) :=
  (FlatWidths.run ⟨List.replicate ops.length none, []⟩ 0 ops).map FlatWidths.result

/-- The text and the state after one op, where the width of a group is known. -/
def RenderState.stepWhole (width : UInt64) (state : RenderState) :
    Op × Option UInt64 → List Char × RenderState
  | (.text value, _) => state.write value
  | (.line flat, _) =>
    if state.modes.head? = some .flat then state.write flat else state.newline width
  | (.hardLine, _) => state.newline width
  | (.nestStart amount, _) => ([], { state with indentation := state.indentation + amount })
  | (.nestEnd amount, _) => ([], { state with indentation := state.indentation - amount })
  | (.groupStart, group) =>
    if state.modes.head? = some .flat || group.any fun group => state.column + group ≤ width then
      state.push .flat
    else state.push .broken
  | (.groupEnd, _) => ([], { state with modes := state.modes.tail })

def wholeFrom (width : UInt64) (state : RenderState) : List (Op × Option UInt64) → List Char
  | [] => []
  | pair :: pairs =>
    (state.stepWhole width pair).1 ++ wholeFrom width (state.stepWhole width pair).2 pairs

/-- `whole_document_render`: the widths of all groups, and then the text. -/
def wholeDocumentRender (ops : List Op) (mode : RenderMode) (width : UInt64) :
    Option (List Char) :=
  (wholeDocumentFlatWidths ops).map fun widths =>
    wholeFrom width ⟨0, 0, [mode.base]⟩ (ops.zip widths)

end TwoPasses

section FirstPass

/-- A width that a machine word holds. -/
def wordOf (flat : Option Nat) : Option UInt64 :=
  flat.bind fun width => if width < UInt64.size then some (UInt64.ofNat width) else none

theorem toNat_add_of_lt {a b : UInt64} (h : a.toNat + b.toNat < UInt64.size) :
    (a + b).toNat = a.toNat + b.toNat := by
  rw [UInt64.toNat_add]
  exact Nat.mod_eq_of_lt h

theorem toNat_add_ofNat {n : Nat} {w : UInt64} (h : w.toNat + n < UInt64.size) :
    (w + UInt64.ofNat n).toNat = w.toNat + n := by
  have hlt : n < UInt64.size := by omega
  rw [toNat_add_of_lt, UInt64.toNat_ofNat_of_lt' hlt]
  rwa [UInt64.toNat_ofNat_of_lt' hlt]

theorem addWidths_word_some (total : UInt64) (width : Nat) :
    addWidths (some total) (wordOf (some width)) =
      if total.toNat + width < UInt64.size then some (total + UInt64.ofNat width) else none := by
  by_cases hlt : width < UInt64.size
  · simp only [wordOf, Option.bind_some, if_pos hlt, addWidths, UInt64.toNat_ofNat_of_lt' hlt]
  · have hsum : ¬total.toNat + width < UInt64.size := by omega
    simp only [wordOf, Option.bind_some, if_neg hlt, addWidths, if_neg hsum]

/-- Checked widths are added one after the other or all at once. -/
theorem addWidths_word (total : Option UInt64) (first second : Option Nat) :
    addWidths (addWidths total (wordOf first)) (wordOf second) =
      addWidths total (wordOf (plus first second)) := by
  cases total with
  | none => rfl
  | some total =>
    cases first with
    | none => rfl
    | some first =>
      cases second with
      | none =>
        rw [addWidths_word_some]
        split <;> rfl
      | some second =>
        change _ = addWidths (some total) (wordOf (some (first + second)))
        rw [addWidths_word_some, addWidths_word_some]
        by_cases hfirst : total.toNat + first < UInt64.size
        · rw [if_pos hfirst, addWidths_word_some, toNat_add_ofNat hfirst, Nat.add_assoc,
            UInt64.add_assoc, ← UInt64.ofNat_add]
        · have hsum : ¬total.toNat + (first + second) < UInt64.size := by omega
          rw [if_neg hfirst, if_neg hsum]
          rfl

theorem addToGroup_word (stack : List (Nat × Option UInt64)) (first second : Option Nat) :
    addToGroup (wordOf second) (addToGroup (wordOf first) stack) =
      addToGroup (wordOf (plus first second)) stack := by
  cases stack with
  | nil => rfl
  | cons entry stack => rw [addToGroup, addToGroup, addToGroup, addWidths_word]

/-- Nested ops with the widths of their groups. -/
inductive Annotated : List (Op × Option UInt64) → Prop where
  | nil : Annotated []
  | text (value : List Char) {pairs : List (Op × Option UInt64)} (h : Annotated pairs) :
    Annotated ((.text value, none) :: pairs)
  | line (flat : List Char) {pairs : List (Op × Option UInt64)} (h : Annotated pairs) :
    Annotated ((.line flat, none) :: pairs)
  | hardLine {pairs : List (Op × Option UInt64)} (h : Annotated pairs) :
    Annotated ((.hardLine, none) :: pairs)
  | nest (amount : UInt64) {inner pairs : List (Op × Option UInt64)} (hinner : Annotated inner)
    (h : Annotated pairs) :
    Annotated ((.nestStart amount, none) :: (inner ++ (.nestEnd amount, none) :: pairs))
  | group {inner pairs : List (Op × Option UInt64)} (hinner : Annotated inner)
    (h : Annotated pairs) :
    Annotated ((.groupStart, wordOf (flatOf (inner.map Prod.fst))) ::
      (inner ++ (.groupEnd, none) :: pairs))

theorem addToGroup_zero (stack : List (Nat × Option UInt64)) :
    addToGroup (some 0) stack = stack := by
  cases stack with
  | nil => rfl
  | cons entry stack =>
    obtain ⟨start, total⟩ := entry
    cases total with
    | none => rfl
    | some total =>
      have hzero := addWidths_word_some total 0
      rw [Nat.add_zero, if_pos total.toNat_lt] at hzero
      rw [addToGroup]
      exact congrArg (fun total => (start, total) :: stack)
        (hzero.trans (congrArg some (UInt64.add_zero total)))

/-- The first pass over some ops leaves the widths beside them, and adds a width to the group
around them. -/
def Passed (pairs : List (Op × Option UInt64)) (flat : Option Nat) : Prop :=
  ∀ (done : List (Option UInt64)) (left : Nat) (rest : List Op)
    (stack : List (Nat × Option UInt64)),
    FlatWidths.run ⟨done ++ List.replicate (pairs.length + left) none, stack⟩ done.length
        (pairs.map Prod.fst ++ rest) =
      FlatWidths.run ⟨done ++ pairs.map Prod.snd ++ List.replicate left none,
        addToGroup (wordOf flat) stack⟩ (done.length + pairs.length) rest

theorem Passed.nil : Passed [] (some 0) := by
  intro done left rest stack
  rw [show wordOf (some 0) = some 0 from rfl, addToGroup_zero]
  simp

theorem Passed.append {first second : List (Op × Option UInt64)} {flat flat' : Option Nat}
    (h : Passed first flat) (h' : Passed second flat') :
    Passed (first ++ second) (plus flat flat') := by
  intro done left rest stack
  have hfirst := h done (second.length + left) (second.map Prod.fst ++ rest) stack
  have hsecond := h' (done ++ first.map Prod.snd) left rest (addToGroup (wordOf flat) stack)
  rw [List.length_append, List.length_map] at hsecond
  rw [List.length_append, Nat.add_assoc, List.map_append, List.append_assoc, hfirst, hsecond,
    addToGroup_word, List.map_append, List.append_assoc done, Nat.add_assoc]

/-- An op that is no mark of a group. -/
theorem Passed.op {op : Op} {flat : Option Nat}
    (h : ∀ widths index, FlatWidths.step widths index op =
      some ⟨widths.result, addToGroup (wordOf flat) widths.stack⟩) : Passed [(op, none)] flat := by
  intro done left rest stack
  rw [List.map_singleton, List.singleton_append, FlatWidths.run, h, Option.bind_some,
    List.length_singleton, Nat.add_comm 1 left, List.replicate_succ, List.map_singleton,
    List.append_assoc, List.singleton_append]

theorem addWidths_zero (flat : Option Nat) : addWidths (some 0) (wordOf flat) = wordOf flat := by
  cases flat with
  | none => rfl
  | some width =>
    rw [addWidths_word_some, wordOf, Option.bind_some]
    simp

theorem Passed.group {inner : List (Op × Option UInt64)} {flat : Option Nat}
    (h : Passed inner flat) :
    Passed ((.groupStart, wordOf flat) :: (inner ++ [(.groupEnd, none)])) flat := by
  intro done left rest stack
  have hinner := h (done ++ [none]) (1 + left) (.groupEnd :: rest)
    ((done.length, some 0) :: stack)
  -- The start of the group has its place before those of its ops, and is set behind them.
  have hplaces : done ++ List.replicate (inner.length + 1 + 1 + left) none =
      done ++ [none] ++ List.replicate (inner.length + (1 + left)) none := by
    rw [List.append_assoc, List.singleton_append, ← List.replicate_succ]
    congr 2
    omega
  have hset : (done ++ [none] ++ inner.map Prod.snd ++ List.replicate (1 + left) none).set
      done.length (wordOf flat) =
        done ++ wordOf flat :: (inner.map Prod.snd ++ [none]) ++ List.replicate left none := by
    rw [List.append_assoc, List.append_assoc, List.set_append_right _ _ le_rfl, Nat.sub_self,
      Nat.add_comm 1 left, List.replicate_succ]
    simp
  have hops : ((Op.groupStart, wordOf flat) :: (inner ++ [(Op.groupEnd, none)])).map Prod.fst ++
      rest = .groupStart :: (inner.map Prod.fst ++ .groupEnd :: rest) := by simp
  have hstart : ∀ (result : List (Option UInt64)) (index : Nat) (ops : List Op),
      FlatWidths.run ⟨result, stack⟩ index (.groupStart :: ops) =
        FlatWidths.run ⟨result, (index, some 0) :: stack⟩ (index + 1) ops := fun _ _ _ => rfl
  have hend : ∀ (result : List (Option UInt64)) (start index : Nat) (width : Option UInt64),
      FlatWidths.run ⟨result, (start, width) :: stack⟩ index (.groupEnd :: rest) =
        FlatWidths.run ⟨result.set start width, addToGroup width stack⟩ (index + 1) rest :=
    fun _ _ _ _ => rfl
  rw [List.length_append, List.length_singleton] at hinner
  rw [hops, List.length_cons, List.length_append, List.length_singleton, hplaces, hstart, hinner,
    addToGroup, addWidths_zero, hend, hset, List.map_cons, List.map_append, List.map_singleton]
  congr 1
  omega

/-- The first pass over nested ops finds the widths of their groups. -/
theorem exists_annotated {ops : List Op} (h : Nested ops) (hsmall : totalSize ops < UInt64.size) :
    ∃ pairs, Annotated pairs ∧ pairs.map Prod.fst = ops ∧ Passed pairs (flatOf ops) := by
  have htext : ∀ (flat : List Char), flat.length < UInt64.size →
      some (UInt64.ofNat flat.length) = wordOf (some flat.length) := by
    intro flat hflat
    rw [wordOf, Option.bind_some, if_pos hflat]
  induction h with
  | nil => exact ⟨[], .nil, rfl, .nil⟩
  | @text value ops _ ih =>
    simp only [totalSize_cons, Op.size, Op.flatWidth] at hsmall
    obtain ⟨pairs, hpairs, rfl, hpassed⟩ := ih (by omega)
    have hop : Passed [(.text value, none)] (some value.length) := by
      refine Passed.op fun widths index => ?_
      rw [FlatWidths.step, htext value (by omega)]
    exact ⟨_, .text value hpairs, rfl, hop.append hpassed⟩
  | @line flat ops _ ih =>
    simp only [totalSize_cons, Op.size, Op.flatWidth] at hsmall
    obtain ⟨pairs, hpairs, rfl, hpassed⟩ := ih (by omega)
    have hop : Passed [(.line flat, none)] (some flat.length) := by
      refine Passed.op fun widths index => ?_
      rw [FlatWidths.step, htext flat (by omega)]
    exact ⟨_, .line flat hpairs, rfl, hop.append hpassed⟩
  | @hardLine ops _ ih =>
    simp only [totalSize_cons] at hsmall
    obtain ⟨pairs, hpairs, rfl, hpassed⟩ := ih (by omega)
    have hop : Passed [(.hardLine, none)] none := Passed.op fun _ _ => rfl
    exact ⟨_, .hardLine hpairs, rfl, hop.append hpassed⟩
  | @nest amount inner ops _ _ ihinner ih =>
    simp only [totalSize_cons, totalSize_append] at hsmall
    obtain ⟨inner, hinner, rfl, hpassed⟩ := ihinner (by omega)
    obtain ⟨pairs, hpairs, rfl, hpassed'⟩ := ih (by omega)
    refine ⟨_, .nest amount hinner hpairs, by simp, ?_⟩
    have hstart : Passed [(.nestStart amount, none)] (some 0) := Passed.op fun _ _ => rfl
    have hend : Passed [(.nestEnd amount, none)] (some 0) := Passed.op fun _ _ => rfl
    have hall := hstart.append (hpassed.append (hend.append hpassed'))
    have hflat : plus (some 0) (plus (flatOf (inner.map Prod.fst))
        (plus (some 0) (flatOf (pairs.map Prod.fst)))) =
          plus (flatOf (inner.map Prod.fst)) (flatOf (pairs.map Prod.fst)) := by
      cases flatOf (inner.map Prod.fst) <;> cases flatOf (pairs.map Prod.fst) <;> simp
    rw [flatOf_nest, ← hflat]
    exact hall
  | @group inner ops _ _ ihinner ih =>
    simp only [totalSize_cons, totalSize_append] at hsmall
    obtain ⟨inner, hinner, rfl, hpassed⟩ := ihinner (by omega)
    obtain ⟨pairs, hpairs, rfl, hpassed'⟩ := ih (by omega)
    refine ⟨_, .group hinner hpairs, by simp, ?_⟩
    have hall := hpassed.group.append hpassed'
    rw [List.cons_append, List.append_assoc] at hall
    rw [flatOf_group]
    exact hall

end FirstPass

section SecondPass

theorem Annotated.nested {pairs : List (Op × Option UInt64)} (h : Annotated pairs) :
    Nested (pairs.map Prod.fst) := by
  induction h with
  | nil => exact .nil
  | text value _ ih => exact .text value ih
  | line flat _ ih => exact .line flat ih
  | hardLine _ ih => exact .hardLine ih
  | nest amount _ _ ihinner ih =>
    rw [List.map_cons, List.map_append, List.map_cons]
    exact .nest amount ihinner ih
  | group _ _ ihinner ih =>
    rw [List.map_cons, List.map_append, List.map_cons]
    exact .group ihinner ih

/-- Both renderers write a text for some ops, and go on in one state. -/
structure Renders (width : UInt64) (state : RenderState) (pairs : List (Op × Option UInt64))
    (text : List Char) (after : RenderState) : Prop where
  streamed (rest : List Op) : renderFrom width state (pairs.map Prod.fst ++ rest) =
    (renderFrom width after rest).map (text ++ ·)
  whole (rest : List (Op × Option UInt64)) :
    wholeFrom width state (pairs ++ rest) = text ++ wholeFrom width after rest

variable {width : UInt64} {state next after : RenderState} {text text' : List Char}
  {pair : Op × Option UInt64} {pairs pairs' : List (Op × Option UInt64)}

theorem Renders.nil : Renders width state [] [] state where
  streamed _ := Option.map_id'.symm
  whole _ := rfl

theorem Renders.cons (h : Renders width next pairs text' after)
    (hstep : ∀ rest, state.step width pair.1 (pairs.map Prod.fst ++ rest) = some (text, next))
    (hwhole : state.stepWhole width pair = (text, next)) :
    Renders width state (pair :: pairs) (text ++ text') after where
  streamed rest := by
    rw [List.map_cons, List.cons_append, renderFrom, hstep]
    simp only [h.streamed, Option.map_map, Function.comp_def, List.append_assoc]
  whole rest := by
    rw [List.cons_append, wholeFrom, hwhole, h.whole, List.append_assoc]

theorem Renders.append (h : Renders width state pairs text next)
    (h' : Renders width next pairs' text' after) :
    Renders width state (pairs ++ pairs') (text ++ text') after where
  streamed rest := by
    rw [List.map_append, List.append_assoc, h.streamed, h'.streamed]
    simp only [Option.map_map, Function.comp_def, List.append_assoc]
  whole rest := by
    rw [List.append_assoc, h.whole, h'.whole, List.append_assoc]

/-- A group is laid out flat by the look-ahead where its width fits in the rest of the line. -/
theorem step_group (width : UInt64) {state : RenderState} {inner : List (Op × Option UInt64)}
    (h : Annotated inner)
    (hsmall : state.column.toNat + totalSize (inner.map Prod.fst) < UInt64.size)
    (rest : List Op) :
    state.step width .groupStart (inner.map Prod.fst ++ .groupEnd :: rest) =
      some (state.stepWhole width (.groupStart, wordOf (flatOf (inner.map Prod.fst)))) := by
  simp only [RenderState.step, RenderState.stepWhole]
  by_cases hflat : state.modes.head? = some .flat
  · simp [hflat]
  · rw [if_neg hflat, fits_nested h.nested (by omega)]
    cases hwidth : flatOf (inner.map Prod.fst) with
    | none =>
      simp [hflat, fitsBehind, wordOf]
    | some flat =>
      have hle := flatOf_le hwidth
      have hword : wordOf (some flat) = some (UInt64.ofNat flat) := if_pos (by omega)
      have hsum : state.column + UInt64.ofNat flat ≤ width ↔
          state.column.toNat + flat ≤ width.toNat := by
        rw [UInt64.le_iff_toNat_le, toNat_add_ofNat (by omega)]
      rw [hword]
      by_cases hcolumn : state.column ≤ width
      · have hremaining : flat ≤ (width - state.column).toNat ↔
            state.column + UInt64.ofNat flat ≤ width := by
          have hcolumn' := UInt64.le_iff_toNat_le.mp hcolumn
          rw [hsum, UInt64.toNat_sub_of_le _ _ hcolumn]
          omega
        rw [if_pos hcolumn, fitsBehind]
        by_cases hfits : state.column + UInt64.ofNat flat ≤ width
        · rw [if_pos (hremaining.mpr hfits)]
          simp [hflat, hfits, fits]
        · rw [if_neg (hremaining.not.mpr hfits)]
          simp [hflat, hfits]
      · have hfits : ¬state.column + UInt64.ofNat flat ≤ width := by
          rw [hsum]
          rw [UInt64.le_iff_toNat_le] at hcolumn
          omega
        simp [hflat, hcolumn, hfits]

/-- The state behind some ops: as before them, but for the column. -/
structure Beyond (state : RenderState) (slack : Nat) (after : RenderState) : Prop where
  modes : after.modes = state.modes
  indentation : after.indentation = state.indentation
  column : after.column.toNat + slack < UInt64.size

/-- Nested ops whose counters stay in a machine word are rendered alike. -/
theorem renders_annotated (h : Annotated pairs) (width : UInt64) (state : RenderState)
    (slack : Nat)
    (hcolumn : state.column.toNat + totalSize (pairs.map Prod.fst) + slack < UInt64.size)
    (hindentation :
      state.indentation.toNat + totalSize (pairs.map Prod.fst) + slack < UInt64.size) :
    ∃ text after, Renders width state pairs text after ∧ Beyond state slack after := by
  induction h generalizing state slack with
  | nil => exact ⟨[], state, .nil, rfl, rfl, by simpa using hcolumn⟩
  | @text value pairs _ ih =>
    simp only [List.map_cons, totalSize_cons, Op.size, Op.flatWidth] at hcolumn hindentation
    have hnext : (state.write value).2.column.toNat = state.column.toNat + value.length :=
      toNat_add_ofNat (by omega)
    obtain ⟨text, after, hrest, hmodes, hindent, hafter⟩ := ih (state.write value).2 slack
      (by omega) (show state.indentation.toNat + _ + _ < _ by omega)
    exact ⟨_, after, hrest.cons (fun _ => rfl) rfl, hmodes, hindent, hafter⟩
  | @line flat pairs _ ih =>
    simp only [List.map_cons, totalSize_cons, Op.size, Op.flatWidth] at hcolumn hindentation
    by_cases hflat : state.modes.head? = some .flat
    · have hnext : (state.write flat).2.column.toNat = state.column.toNat + flat.length :=
        toNat_add_ofNat (by omega)
      obtain ⟨text, after, hrest, hmodes, hindent, hafter⟩ := ih (state.write flat).2 slack
        (by omega) (show state.indentation.toNat + _ + _ < _ by omega)
      exact ⟨_, after, hrest.cons (fun _ => if_pos hflat) (if_pos hflat), hmodes, hindent, hafter⟩
    · obtain ⟨text, after, hrest, hmodes, hindent, hafter⟩ := ih (state.newline width).2 slack
        (show state.indentation.toNat + _ + _ < _ by omega)
        (show state.indentation.toNat + _ + _ < _ by omega)
      exact ⟨_, after, hrest.cons (fun _ => if_neg hflat) (if_neg hflat), hmodes, hindent, hafter⟩
  | @hardLine pairs _ ih =>
    simp only [List.map_cons, totalSize_cons] at hcolumn hindentation
    obtain ⟨text, after, hrest, hmodes, hindent, hafter⟩ := ih (state.newline width).2 slack
      (show state.indentation.toNat + _ + _ < _ by omega)
      (show state.indentation.toNat + _ + _ < _ by omega)
    exact ⟨_, after, hrest.cons (fun _ => rfl) rfl, hmodes, hindent, hafter⟩
  | @nest amount inner pairs _ _ ihinner ih =>
    simp only [List.map_cons, List.map_append, totalSize_cons, totalSize_append, Op.size,
      Op.flatWidth] at hcolumn hindentation
    have hnested : (state.indentation + amount).toNat =
        state.indentation.toNat + amount.toNat := toNat_add_of_lt (by omega)
    obtain ⟨text, mid, hinner, hmodes, hindent, hmid⟩ :=
      ihinner { state with indentation := state.indentation + amount }
        (totalSize (pairs.map Prod.fst) + slack) (by dsimp only; omega) (by dsimp only; omega)
    have hback : mid.indentation - amount = state.indentation := by
      rw [hindent]
      exact UInt64.add_sub_cancel _ _
    obtain ⟨text', after, hrest, hmodes', hindent', hafter⟩ :=
      ih { mid with indentation := mid.indentation - amount } slack (by dsimp only; omega)
        (by dsimp only; rw [hback]; omega)
    refine ⟨_, after, (hinner.append (hrest.cons (fun _ => rfl) rfl)).cons (fun _ => rfl) rfl,
      hmodes'.trans hmodes, hindent'.trans hback, hafter⟩
  | @group inner pairs hinside _ ihinner ih =>
    simp only [List.map_cons, List.map_append, totalSize_cons,
      totalSize_append] at hcolumn hindentation
    have hcolumn' : state.column.toNat + totalSize (inner.map Prod.fst) < UInt64.size := by omega
    have hstep := step_group width hinside hcolumn'
    have hpush : ∃ mode, state.stepWhole width
        (.groupStart, wordOf (flatOf (inner.map Prod.fst))) = state.push mode := by
      rw [RenderState.stepWhole]
      split
      · exact ⟨.flat, rfl⟩
      · exact ⟨.broken, rfl⟩
    obtain ⟨mode, hpush⟩ := hpush
    obtain ⟨text, mid, hinner, hmodes, hindent, hmid⟩ := ihinner (state.push mode).2
      (totalSize (pairs.map Prod.fst) + slack)
      (show state.column.toNat + _ + _ < _ by omega)
      (show state.indentation.toNat + _ + _ < _ by omega)
    have hindent : mid.indentation = state.indentation := hindent
    obtain ⟨text', after, hrest, hmodes', hindent', hafter⟩ :=
      ih { mid with modes := mid.modes.tail } slack (by dsimp only; omega)
        (by dsimp only; rw [hindent]; omega)
    have hend : Renders width (state.push mode).2 (inner ++ (.groupEnd, none) :: pairs)
        (text ++ ([] ++ text')) after := hinner.append (hrest.cons (fun _ => rfl) rfl)
    refine ⟨_, after, hend.cons (fun rest => ?_) hpush, ?_, hindent'.trans hindent, hafter⟩
    · have hops : (inner ++ (Op.groupEnd, none) :: pairs).map Prod.fst ++ rest =
          inner.map Prod.fst ++ .groupEnd :: (pairs.map Prod.fst ++ rest) := by simp
      rw [hops]
      exact (hstep _).trans (congrArg some hpush)
    · exact hmodes'.trans (congrArg List.tail hmodes)

/-- What is rendered with the look-ahead is what is rendered in two passes, and the look-ahead
never runs past the end of the ops. -/
theorem streamed_in_two_passes (document : Document) (mode : RenderMode) (width : UInt64) :
    ∃ text, renderStreamed document.ops mode width = some text ∧
      wholeDocumentRender document.ops mode width = some text := by
  obtain ⟨ops, hnested, hsmall⟩ := document
  obtain ⟨pairs, hpairs, rfl, hpassed⟩ := exists_annotated hnested hsmall
  obtain ⟨text, after, hrenders, -⟩ := renders_annotated hpairs width ⟨0, 0, [mode.base]⟩ 0
    (by simpa using hsmall) (by simpa using hsmall)
  refine ⟨text, ?_, ?_⟩
  · have hstreamed := hrenders.streamed []
    rw [List.append_nil, renderFrom, Option.map_some, List.append_nil] at hstreamed
    rw [renderStreamed_eq]
    exact hstreamed
  · have hrun := hpassed [] 0 [] []
    rw [List.append_nil, List.nil_append, List.nil_append, Nat.add_zero, List.replicate_zero,
      List.append_nil, FlatWidths.run] at hrun
    have hwhole := hrenders.whole []
    rw [List.append_nil, wholeFrom, List.append_nil] at hwhole
    rw [wholeDocumentRender, wholeDocumentFlatWidths, List.length_map]
    refine (congrArg (fun found => (Option.map FlatWidths.result found).map _) hrun).trans ?_
    have hzip : (pairs.map Prod.fst).zip (pairs.map Prod.snd) = pairs :=
      (List.zip_of_prod rfl rfl).symm
    rw [Option.map_some, Option.map_some, hzip, hwhole]

end SecondPass

section Queue

def flatTotal (ops : List Op) : Nat := (ops.map Op.flatWidth).sum

theorem flatTotal_le_of_sublist {ops rest : List Op} (h : ops.Sublist rest) :
    flatTotal ops ≤ flatTotal rest :=
  (h.map Op.flatWidth).sum_le_sum fun _ _ => Nat.zero_le _

theorem flatTotal_concat (ops : List Op) (op : Op) :
    flatTotal (ops ++ [op]) = flatTotal ops + op.flatWidth := by
  rw [flatTotal, List.map_append, List.sum_append]
  rfl

theorem flatWidth_le_totalSize {ops : List Op} {op : Op} (h : op ∈ ops) :
    op.flatWidth ≤ totalSize ops := by
  have hle : op.flatWidth ≤ op.size := by
    cases op <;> simp [Op.size, Op.flatWidth]
  exact hle.trans (List.single_le_sum (fun _ _ => Nat.zero_le _) _ (List.mem_map_of_mem h))

/-- Ops whose widths a machine word holds are left, and but for the last one those of the queue
are no wider than the line. -/
structure Held (width : UInt64) (stream : OpStream) : Prop where
  words : ∀ op ∈ stream.ops, op.flatWidth < UInt64.size
  queue : flatTotal stream.lookahead.dropLast ≤ width.toNat

/-- The ops that the look-ahead has passed, and what it still has of the line. -/
structure Scanned (width : UInt64) (scan : Scan) : Prop where
  held : Held width scan.stream
  index : scan.index ≤ scan.stream.lookahead.length
  line : flatTotal (scan.stream.lookahead.take scan.index) + scan.remaining.toNat ≤ width.toNat

theorem Scanned.read {width : UInt64} {scan : Scan} {op : Op} {stream : OpStream}
    (h : Scanned width scan) (hread : scan.stream.read scan.index = some (op, stream)) :
    Held width stream := by
  obtain ⟨⟨hwords, hqueue⟩, hindex, hline⟩ := h
  refine ⟨?_, ?_⟩
  · rw [OpStream.read_ops hread]
    exact hwords
  · rcases OpStream.read_some hread with ⟨-, rfl⟩ | ⟨hend, -, hlookahead⟩
    · exact hqueue
    · rw [List.take_of_length_le hend] at hline
      rw [hlookahead, List.dropLast_concat]
      exact (Nat.le_add_right _ _).trans hline

theorem Scan.turn_remaining {scan after : Scan} {op : Op} {stream : OpStream}
    (h : scan.turn = .inr after) (hread : scan.stream.read scan.index = some (op, stream))
    (hword : op.flatWidth < UInt64.size) :
    after.remaining.toNat + op.flatWidth = scan.remaining.toNat := by
  obtain ⟨remaining, depth, index, source⟩ := scan
  have hread : source.read index = some (op, stream) := hread
  rw [turn] at h
  simp only [hread] at h
  cases op with
  | hardLine => cases h
  | nestStart amount | nestEnd amount | groupStart =>
    cases h
    rfl
  | groupEnd =>
    cases depth with
    | zero => cases h
    | succ depth =>
      cases h
      rfl
  | text flat | line flat =>
    dsimp only at h
    split at h
    · next hle =>
      cases h
      have hle' : flat.length ≤ remaining.toNat := (ofNat_le_iff hword).mp hle
      have hsub : (remaining - UInt64.ofNat flat.length).toNat = remaining.toNat - flat.length :=
        toNat_sub_ofNat hle'
      simp only [Op.flatWidth]
      omega
    · cases h

theorem Scanned.turn {width : UInt64} {scan after : Scan} (h : Scanned width scan)
    (hturn : scan.turn = .inr after) : Scanned width after := by
  obtain ⟨op, hread, hnext, -⟩ := Scan.turn_inr hturn
  have hheld := h.read hread
  obtain ⟨hop, htake, -⟩ := OpStream.read_at hread h.index
  obtain ⟨hlt, hget⟩ := List.getElem?_eq_some_iff.mp hop
  have hmem : op ∈ after.stream.ops :=
    List.mem_append_left _ (hget ▸ List.getElem_mem hlt)
  have hremaining := Scan.turn_remaining hturn hread (hheld.words op hmem)
  refine ⟨hheld, by omega, ?_⟩
  have hpassed : flatTotal (after.stream.lookahead.take after.index) =
      flatTotal (scan.stream.lookahead.take scan.index) + op.flatWidth := by
    rw [hnext, List.take_add_one, hop, htake]
    exact flatTotal_concat _ _
  have hline := h.line
  omega

/-- The look-ahead reads no further than the line. -/
theorem Scanned.run {width : UInt64} {scan : Scan} (h : Scanned width scan) :
    ∀ found ∈ scanLoop.run scan, Held width found.2 := by
  revert h
  refine scanLoop.run_spec
    (Q := fun scan result => Scanned width scan → ∀ found ∈ result, Held width found.2)
    ?_ ?_ scan
  · intro scan result hturn h found hfound
    rcases Scan.turn_inl hturn with ⟨rfl, -⟩ | ⟨op, answer, after, rfl, hread, -⟩
    · cases hfound
    · cases hfound
      exact h.read hread
  · intro scan after result hturn ih h
    exact ih (h.turn hturn)

theorem Held.step {width : UInt64} {state : RenderState} {op : Op} {stream : OpStream}
    (h : Held width stream) :
    ∀ found ∈ state.stepStream width op stream, Held width found.2.2 := by
  intro found hfound
  cases op with
  | groupStart =>
    rw [RenderState.stepStream] at hfound
    split at hfound
    · cases hfound
      exact h
    · split at hfound
      · next hcolumn =>
        obtain ⟨inner, hinner, rfl⟩ := Option.map_eq_some_iff.mp hfound
        have hscanned : Scanned width ⟨width - state.column, 0, 0, stream⟩ := by
          refine ⟨h, Nat.zero_le _, ?_⟩
          rw [List.take_zero, UInt64.toNat_sub_of_le _ _ hcolumn]
          exact (Nat.zero_add _).trans_le (Nat.sub_le _ _)
        exact hscanned.run inner hinner
      · cases hfound
        exact h
  | _ =>
    simp only [RenderState.stepStream, Option.mem_def, Option.map_eq_some_iff] at hfound
    obtain ⟨inner, -, rfl⟩ := hfound
    exact h

theorem Held.turn {width : UInt64} {rendering after : Rendering}
    (h : Held width rendering.stream) (hturn : rendering.turn width = .inr after) :
    Held width after.stream := by
  obtain ⟨op, stream, text, hnext, hstep, -⟩ := Rendering.turn_inr hturn
  obtain ⟨hops, hlookahead⟩ := OpStream.next_some hnext
  have hheld : Held width stream := by
    refine ⟨fun op hop => h.words op ?_, ?_⟩
    · rw [hops]
      exact List.mem_cons_of_mem _ hop
    · rw [hlookahead, ← List.tail_dropLast]
      exact (flatTotal_le_of_sublist (List.tail_sublist _)).trans h.queue
  exact hheld.step _ hstep

/-- In every state of the renderer, the queue holds at most a line of ops and one more. -/
theorem queue_within_line (document : Document) (mode : RenderMode) (width : UInt64)
    {rendering : Rendering}
    (h : Relation.ReflTransGen (fun before after => before.turn width = .inr after)
      (.start document.ops mode) rendering) :
    flatTotal rendering.stream.lookahead.dropLast ≤ width.toNat := by
  have hheld : Held width rendering.stream := by
    induction h with
    | refl =>
      refine ⟨fun op hop => ?_, Nat.zero_le _⟩
      exact (flatWidth_le_totalSize hop).trans_lt document.small
    | tail _ hturn ih => exact ih.turn hturn
  exact hheld.queue

/-- A group of three columns, which is read up to the text that passes a width of two. -/
theorem queue_within_line_of_group :
    flatTotal (OpStream.mk [.text ['a'], .line [' '], .text ['b']] [.groupEnd]).lookahead.dropLast
      ≤ (2 : UInt64).toNat :=
  queue_within_line ⟨[.groupStart, .text ['a'], .line [' '], .text ['b'], .groupEnd],
    .group (.text _ (.line _ (.text _ .nil))) .nil, by decide⟩ .pretty 2
    (.single (by simp [Rendering.turn, Rendering.start, OpStream.next, RenderState.stepStream,
      RenderMode.base, scanLoop, Loop.run, Scan.turn, OpStream.read, RenderState.push]; rfl))

end Queue

end KRust.Kore
