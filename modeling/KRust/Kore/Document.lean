import Mathlib.Data.List.Basic

/-!
Documents of the KORE printer: sequences of texts, line breaks, nests and groups, and the
renderer that lays a group out on one line when it fits in the rest of the line.
-/

set_option linter.unusedSectionVars false

namespace KRust.Kore

section Definitions

inductive Op where
  | text (value : List Char)
  | line (flat : List Char)
  | hardLine
  | nestStart (amount : UInt64)
  | nestEnd (amount : UInt64)
  | groupStart
  | groupEnd

abbrev Doc := List Op

namespace Doc

def text (value : List Char) : Doc := [.text value]

def line : Doc := [.line [' ']]

def lineBreak : Doc := [.line []]

def concat (documents : List Doc) : Doc := documents.flatten

def nest (amount : UInt64) (doc : Doc) : Doc :=
  if doc.isEmpty then doc else Op.nestStart amount :: doc ++ [Op.nestEnd amount]

def group (doc : Doc) : Doc :=
  if doc.isEmpty then doc else Op.groupStart :: doc ++ [Op.groupEnd]

end Doc

inductive RenderMode where
  | compact
  | pretty
  deriving DecidableEq

inductive Mode where
  | flat
  | broken
  deriving DecidableEq

/-- What the renderer knows while it writes: the modes of the open groups, innermost
first, over the base mode. Its counters are machine words. -/
structure RenderState where
  column : UInt64
  indentation : UInt64
  modes : List Mode

/-- `fits`: whether the group whose ops come first is at most `remaining` wide on one line;
`none` where the ops end before the group does. -/
def fits (remaining : UInt64) (depth : Nat) : List Op → Option Bool
  | [] => none
  | op :: ops =>
    match op with
    | .hardLine => some false
    | .nestStart _ | .nestEnd _ => fits remaining depth ops
    | .groupStart => fits remaining (depth + 1) ops
    | .groupEnd =>
      match depth with
      | 0 => some true
      | depth + 1 => fits remaining depth ops
    | .text flat | .line flat =>
      if UInt64.ofNat flat.length ≤ remaining then
        fits (remaining - UInt64.ofNat flat.length) depth ops
      else some false

/-- `write_spaces`. -/
def spaces (count : UInt64) : List Char := List.replicate count.toNat ' '

namespace RenderState

def write (state : RenderState) (text : List Char) : List Char × RenderState :=
  (text, { state with column := state.column + UInt64.ofNat text.length })

/-- The break of a line: the next one starts with its indentation, at most the width. -/
def newline (width : UInt64) (state : RenderState) : List Char × RenderState :=
  ('\n' :: spaces (min state.indentation width), { state with column := state.indentation })

def push (state : RenderState) (mode : Mode) : List Char × RenderState :=
  ([], { state with modes := mode :: state.modes })

/-- The text and the state after one op, with the ops that follow it ahead. -/
def step (width : UInt64) (state : RenderState) (op : Op) (ahead : List Op) :
    Option (List Char × RenderState) :=
  match op with
  | .text value => some (state.write value)
  | .line flat =>
    if state.modes.head? = some .flat then some (state.write flat)
    else some (state.newline width)
  | .hardLine => some (state.newline width)
  | .nestStart amount => some ([], { state with indentation := state.indentation + amount })
  | .nestEnd amount => some ([], { state with indentation := state.indentation - amount })
  | .groupStart =>
    if state.modes.head? = some .flat then some (state.push .flat)
    else if state.column ≤ width then
      (fits (width - state.column) 0 ahead).map fun flat =>
        state.push (if flat then .flat else .broken)
    else some (state.push .broken)
  | .groupEnd => some ([], { state with modes := state.modes.tail })

end RenderState

/-- The loop of `render` over the ops that are left. -/
def renderFrom (width : UInt64) (state : RenderState) : List Op → Option (List Char)
  | [] => some []
  | op :: ops =>
    match state.step width op ops with
    | none => none
    | some (text, state) => (renderFrom width state ops).map (text ++ ·)

def RenderMode.base : RenderMode → Mode
  | .compact => .flat
  | .pretty => .broken

/-- `render`: the text of a document; `none` is the stop at ops without their group end. -/
def render (ops : List Op) (mode : RenderMode) (width : UInt64) : Option (List Char) :=
  renderFrom width ⟨0, 0, [mode.base]⟩ ops

end Definitions

section Layouts

/-- What an op can write: a line writes its flat text, or breaks. -/
inductive Op.Writes : Op → List Char → Prop where
  | text (value : List Char) : Writes (.text value) value
  | flat (value : List Char) : Writes (.line value) value
  | broken (value : List Char) (count : UInt64) : Writes (.line value) ('\n' :: spaces count)
  | hard (count : UInt64) : Writes .hardLine ('\n' :: spaces count)
  | nestStart (amount : UInt64) : Writes (.nestStart amount) []
  | nestEnd (amount : UInt64) : Writes (.nestEnd amount) []
  | groupStart : Writes .groupStart []
  | groupEnd : Writes .groupEnd []

/-- The texts a document can be laid out as, whatever the width and the indentation. -/
inductive Layout : List Op → List Char → Prop where
  | nil : Layout [] []
  | cons {op : Op} {ops : List Op} {text out : List Char} :
    op.Writes text → Layout ops out → Layout (op :: ops) (text ++ out)

theorem writes_of_step {width : UInt64} {state state' : RenderState} {op : Op} {ahead : List Op}
    {text : List Char} (h : state.step width op ahead = some (text, state')) : op.Writes text := by
  cases op with
  | text value =>
    cases h
    exact .text _
  | line flat =>
    simp only [RenderState.step] at h
    split at h
    · cases h
      exact .flat _
    · cases h
      exact .broken _ _
  | hardLine =>
    cases h
    exact .hard _
  | nestStart amount =>
    cases h
    exact .nestStart amount
  | nestEnd amount =>
    cases h
    exact .nestEnd amount
  | groupStart =>
    have htext : text = [] := by
      simp only [RenderState.step] at h
      split at h
      · cases h
        rfl
      · split at h
        · obtain ⟨flat, -, heq⟩ := Option.map_eq_some_iff.mp h
          cases heq
          rfl
        · cases h
          rfl
    rw [htext]
    exact .groupStart
  | groupEnd =>
    cases h
    exact .groupEnd

/-- What the renderer writes is a layout of the document. -/
theorem layout_of_renderFrom {width : UInt64} {state : RenderState} {ops : List Op}
    {out : List Char} (h : renderFrom width state ops = some out) : Layout ops out := by
  induction ops generalizing state out with
  | nil =>
    cases h
    exact .nil
  | cons op ops ih =>
    rw [renderFrom] at h
    split at h
    · cases h
    · rename_i text next hstep
      obtain ⟨rest, hrest, rfl⟩ := Option.map_eq_some_iff.mp h
      exact .cons (writes_of_step hstep) (ih hrest)

end Layouts

section Balance

/-- Ops whose groups all end among them. -/
inductive Balanced : List Op → Prop where
  | nil : Balanced []
  | op {op : Op} {ops : List Op} : op ≠ .groupStart → op ≠ .groupEnd → Balanced ops →
    Balanced (op :: ops)
  | group {inner ops : List Op} : Balanced inner → Balanced ops →
    Balanced (.groupStart :: (inner ++ .groupEnd :: ops))

theorem Balanced.append {ops ops' : List Op} (h : Balanced ops) (h' : Balanced ops') :
    Balanced (ops ++ ops') := by
  induction h with
  | nil => exact h'
  | op hstart hend _ ih => exact .op hstart hend ih
  | group hinner _ _ ih =>
    rw [List.cons_append, List.append_assoc]
    exact .group hinner ih

theorem Balanced.text (value : List Char) {ops : List Op} (h : Balanced ops) :
    Balanced (.text value :: ops) := .op (by simp) (by simp) h

theorem Balanced.grouped {ops : List Op} (h : Balanced ops) :
    Balanced (Op.groupStart :: ops ++ [Op.groupEnd]) := .group h .nil

/-- The look-ahead over balanced ops decides, or goes on behind them. -/
theorem fits_append {ops rest : List Op} (h : Balanced ops) {remaining : UInt64} {depth : Nat}
    (hrest : ∀ remaining, (fits remaining depth rest).isSome = true) :
    (fits remaining depth (ops ++ rest)).isSome = true := by
  induction h generalizing remaining depth rest with
  | nil => exact hrest remaining
  | @op op ops hstart hend _ ih =>
    rw [List.cons_append, fits.eq_def]
    cases op with
    | text value | line value =>
      dsimp only
      split
      · exact ih hrest
      · rfl
    | hardLine => rfl
    | nestStart amount | nestEnd amount => exact ih hrest
    | groupStart => exact absurd rfl hstart
    | groupEnd => exact absurd rfl hend
  | group _ _ ihinner ihops =>
    rw [List.cons_append, List.append_assoc, fits]
    apply ihinner
    intro remaining
    exact ihops hrest

/-- A document whose groups are balanced is rendered to the end. -/
theorem renderFrom_append {width : UInt64} {ops rest : List Op} (h : Balanced ops)
    (hrest : ∀ state, (renderFrom width state rest).isSome = true) (state : RenderState) :
    (renderFrom width state (ops ++ rest)).isSome = true := by
  induction h generalizing state rest with
  | nil => exact hrest state
  | @op op ops hstart hend _ ih =>
    rw [List.cons_append, renderFrom]
    cases op with
    | groupStart => exact absurd rfl hstart
    | groupEnd => exact absurd rfl hend
    | line flat =>
      simp only [RenderState.step]
      split
      · rename_i hnone
        split at hnone <;> cases hnone
      · rw [Option.isSome_map]
        exact ih hrest _
    | _ =>
      simp only [RenderState.step, Option.isSome_map]
      exact ih hrest _
  | @group inner ops hinner hops ihinner ihops =>
    have hfits : ∀ remaining, (fits remaining 0 (inner ++ .groupEnd :: (ops ++ rest))).isSome := by
      intro remaining
      exact fits_append hinner fun _ => rfl
    have hlater : ∀ state,
        (renderFrom width state (inner ++ .groupEnd :: (ops ++ rest))).isSome = true := by
      apply ihinner
      intro state
      rw [renderFrom]
      simp only [RenderState.step, Option.isSome_map]
      exact ihops hrest _
    rw [List.cons_append, List.append_assoc, List.cons_append, renderFrom]
    split
    · rename_i hnone
      simp only [RenderState.step] at hnone
      split at hnone
      · cases hnone
      · split at hnone
        · rw [Option.map_eq_none_iff] at hnone
          have := hfits (width - state.column)
          rw [hnone] at this
          cases this
        · cases hnone
    · rw [Option.isSome_map]
      exact hlater _

theorem render_of_balanced {ops : List Op} (h : Balanced ops) (mode : RenderMode)
    (width : UInt64) : ∃ out, render ops mode width = some out ∧ Layout ops out := by
  have hnil : ∀ state, (renderFrom width state []).isSome = true := fun _ => rfl
  have hsome := renderFrom_append h hnil ⟨0, 0, [mode.base]⟩
  rw [List.append_nil] at hsome
  obtain ⟨out, hout⟩ := Option.isSome_iff_exists.mp hsome
  exact ⟨out, hout, layout_of_renderFrom hout⟩

end Balance

end KRust.Kore
