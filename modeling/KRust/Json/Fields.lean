import KRust.Json.Tree
import KRust.Lib.Worklist

/-!
Reading the members of a JSON object by name, as the KORE and KAST codecs do. A member
that was read is gone; what is left can be asked to be nothing.
-/

set_option linter.unusedSectionVars false

namespace KRust.Json

abbrev Members := List (String × Node)

/-- The errors of a codec that can say what shape it expected. -/
class ShapeError (ε : Type) where
  shape : String → ε

/-- A reader of the members of an object. -/
abbrev Fields (ε α : Type) := StateT Members (Except ε) α

namespace Fields

variable {ε : Type} [ShapeError ε]

/-- `Vec::swap_remove`: the last element takes the place of the removed one. -/
def swapRemove {α : Type} (xs : List α) (index : Nat) : List α :=
  match xs.getLast? with
  | none => []
  | some last => if index + 1 = xs.length then xs.dropLast else (xs.set index last).dropLast

/-- `Fields::new`: the members of an object. -/
def new (node : Node) : Except ε Members :=
  match node.intoObject with
  | some members => .ok members
  | none => .error (ShapeError.shape ("invalid type: " ++ node.kind ++ ", expected an object"))

def take (name : String) : Fields ε (Option Node) := fun members =>
  match members.findIdx? (·.1 = name) with
  | none => .ok (none, members)
  | some index => .ok (members[index]?.map Prod.snd, swapRemove members index)

def required (name : String) : Fields ε Node := do
  match ← take name with
  | some node => return node
  | none => throw (ShapeError.shape ("missing field `" ++ name ++ "`"))

def expectString (node : Node) (field : String) : Except ε String :=
  match node.intoString with
  | some value => .ok value
  | none => .error (ShapeError.shape
    ("invalid type: " ++ node.kind ++ ", expected a string for field `" ++ field ++ "`"))

def expectArray (node : Node) (field : String) : Except ε (List Node) :=
  match node.intoArray with
  | some values => .ok values
  | none => .error (ShapeError.shape
    ("invalid type: " ++ node.kind ++ ", expected an array for field `" ++ field ++ "`"))

def string (name : String) : Fields ε String := do
  (expectString (← required name) name : Except ε String)

def array (name : String) : Fields ε (List Node) := do
  (expectArray (← required name) name : Except ε (List Node))

/-- `str::parse` of an unsigned number of so many bits: digits, with a sign `+` or none. -/
def parseUnsigned (bits : Nat) (text : List Char) : Option Nat :=
  let digits := match text with
    | '+' :: rest => rest
    | _ => text
  if digits.isEmpty || !digits.all Char.isDigit then none
  else
    let value := Nat.ofDigitChars 10 digits 0
    if value < 2 ^ bits then some value else none

theorem parseUnsigned_toDigits {bits n : Nat} (h : n < 2 ^ bits) :
    parseUnsigned bits (Nat.toDigits 10 n) = some n := by
  have hdigits : ∀ c ∈ Nat.toDigits 10 n, c.isDigit = true :=
    fun c hc => Nat.isDigit_of_mem_toDigits (by decide) (by decide) hc
  have hvalue : Nat.ofDigitChars 10 (Nat.toDigits 10 n) 0 = n :=
    Nat.ofDigitChars_toDigits (by decide) (by decide)
  unfold parseUnsigned
  split
  · rename_i rest hplus
    exact absurd (hdigits '+' (by rw [hplus]; simp)) (by decide)
  · have hall : (Nat.toDigits 10 n).all Char.isDigit = true := List.all_eq_true.mpr hdigits
    simp [hall, hvalue, h, Nat.toDigits_ne_nil]

/-- A number of so many bits, of the type that the messages call `expected`. -/
def expectNumber (bits : Nat) (expected : String) (node : Node) (field : String) :
    Except ε Nat :=
  match node with
  | .number token =>
    match parseUnsigned bits token with
    | some value => .ok value
    | none => .error (ShapeError.shape ("invalid value: " ++ String.ofList token ++ ", expected "
      ++ expected ++ " for field `" ++ field ++ "`"))
  | _ => .error (ShapeError.shape
    ("invalid type: " ++ node.kind ++ ", expected " ++ expected ++ " for field `" ++ field ++ "`"))

def u32 (name : String) : Fields ε Nat := do
  (expectNumber 32 "u32" (← required name) name : Except ε Nat)

def usize (name : String) : Fields ε Nat := do
  (expectNumber 64 "usize" (← required name) name : Except ε Nat)

/-- `Fields::finish`: no member is left. -/
def finish : Fields ε Unit := fun members =>
  match members with
  | [] => .ok ((), [])
  | (name, _) :: _ => .error (ShapeError.shape ("unknown field `" ++ name ++ "`"))

/-- What a reader makes of the members of an object. -/
def read {α : Type} (node : Node) (m : Fields ε α) : Except ε α := do
  return (← m.run (← new node)).1

section Runs

variable {α β : Type} {m : Fields ε α} {f : α → Fields ε β} {members rest : Members} {a : α}

/-- A reader that has given its value hands it on. -/
theorem bind_run (h : m.run members = .ok (a, rest)) :
    (m >>= f).run members = (f a).run rest := by
  show m.run members >>= _ = _
  rw [h]
  rfl

theorem bind_lift {result : Except ε α} (h : result = .ok a) :
    ((liftM result : Fields ε α) >>= f).run members = (f a).run members := by
  subst h
  rfl

theorem read_ok (h : m.run members = .ok (a, rest)) : read (.object members) m = .ok a := by
  show m.run members >>= _ = _
  rw [h]
  rfl

end Runs

section Sizes

variable {α β : Type}

/-- What a reader gives and what it leaves are no larger than what it was given, up to what
it has already. -/
def Spends (credit : Nat) (m : Fields ε α) (cost : α → Nat) : Prop :=
  ∀ members a rest, m.run members = .ok (a, rest) →
    cost a + Node.sizeMembers rest ≤ credit + Node.sizeMembers members

theorem Spends.pure {credit : Nat} {a : α} {cost : α → Nat} (h : cost a ≤ credit) :
    Spends credit (pure a : Fields ε α) cost := by
  rintro members _ _ ⟨⟩
  exact Nat.add_le_add_right h _

theorem Spends.throw {credit : Nat} (e : ε) (cost : α → Nat) :
    Spends credit (throw e : Fields ε α) cost := by
  rintro _ _ _ ⟨⟩

theorem Spends.bind {credit : Nat} {m : Fields ε α} {f : α → Fields ε β} {mid : α → Nat}
    {cost : β → Nat} (hm : Spends credit m mid) (hf : ∀ a, Spends (mid a) (f a) cost) :
    Spends credit (m >>= f) cost := by
  intro members b rest h
  obtain ⟨⟨a, middle⟩, ha, hb⟩ := Lib.Except.bind_eq_ok.mp h
  exact Nat.le_trans (hf a _ _ _ hb) (hm _ _ _ ha)

/-- A computation that reads no member. -/
theorem Spends.lift (credit : Nat) (result : Except ε α) :
    Spends credit (liftM result : Fields ε α) fun _ => credit := by
  intro members a rest h
  obtain ⟨a', ha', heq⟩ := Lib.Except.bind_eq_ok.mp h
  cases heq
  exact Nat.le_refl _

/-- An element and the one that takes its place. -/
theorem set_perm {β : Type} {xs : List β} {index : Nat} {x : β} (y : β) (h : xs[index]? = some x) :
    (y :: xs).Perm (x :: xs.set index y) := by
  induction xs generalizing index with
  | nil => cases h
  | cons z xs ih =>
    cases index with
    | zero =>
      cases h
      exact List.Perm.swap _ _ _
    | succ index =>
      have hswap := (ih h).cons z
      exact ((List.Perm.swap z y xs).trans hswap).trans (List.Perm.swap x z _)

theorem swapRemove_perm {β : Type} {xs : List β} {index : Nat} {x : β} (h : xs[index]? = some x) :
    xs.Perm (x :: swapRemove xs index) := by
  rcases List.eq_nil_or_concat xs with rfl | ⟨ys, last, rfl⟩
  · cases h
  · rw [swapRemove, List.concat_eq_append, List.getLast?_concat] at *
    dsimp only
    by_cases hlast : index + 1 = (ys ++ [last]).length
    · have hindex : index = ys.length := by simpa using hlast
      rw [if_pos hlast, List.dropLast_concat]
      rw [hindex, List.getElem?_append_right (Nat.le_refl _)] at h
      simp only [Nat.sub_self, List.getElem?_cons_zero, Option.some.injEq] at h
      rw [h]
      exact List.perm_append_comm
    · have hindex : index < ys.length := by
        have hlt := (List.getElem?_eq_some_iff.mp h).1
        simp only [List.length_append, List.length_cons, List.length_nil] at hlast hlt
        omega
      rw [if_neg hlast, List.set_append_left _ _ hindex, List.dropLast_concat]
      rw [List.getElem?_append_left hindex] at h
      exact List.perm_append_comm.trans (set_perm last h)

/-- A member that is taken is one of the members, and the others are left. -/
theorem take_some {name : String} {members rest : Members} {node : Node}
    (h : (take name : Fields ε _).run members = .ok (some node, rest)) :
    members.Perm ((name, node) :: rest) := by
  change take name members = _ at h
  unfold take at h
  split at h
  · cases h
  · rename_i index hindex
    obtain ⟨hlt, hname, -⟩ := List.findIdx?_eq_some_iff_getElem.mp hindex
    obtain ⟨hnode, hrest⟩ := Prod.mk.inj (Except.ok.inj h)
    have hmember : members[index]? = some (name, node) := by
      rw [List.getElem?_eq_getElem hlt] at hnode ⊢
      cases hnode
      rw [← of_decide_eq_true hname]
    rw [← hrest]
    exact swapRemove_perm hmember

theorem take_none {name : String} {members rest : Members}
    (h : (take name : Fields ε _).run members = .ok (none, rest)) : rest = members := by
  change take name members = _ at h
  unfold take at h
  split at h
  · cases h
    rfl
  · rename_i index hindex
    obtain ⟨hlt, -⟩ := List.findIdx?_eq_some_iff_getElem.mp hindex
    rw [List.getElem?_eq_getElem hlt] at h
    cases h

theorem sizeMembers_perm {members members' : Members} (h : members.Perm members') :
    Node.sizeMembers members = Node.sizeMembers members' := by
  rw [Node.sizeMembers_eq, Node.sizeMembers_eq]
  exact (h.map _).sum_eq

theorem Spends.take (credit : Nat) (name : String) :
    Spends credit (take name : Fields ε _) fun taken => credit + (taken.map Node.size).getD 0 := by
  rintro members (_ | node) rest h
  · rw [take_none h]
    exact Nat.le_refl _
  · rw [sizeMembers_perm (take_some h)]
    exact Nat.le_of_eq (Nat.add_assoc _ _ _)

theorem Spends.required (credit : Nat) (name : String) :
    Spends credit (required name : Fields ε _) fun node => credit + node.size := by
  apply Spends.bind (Spends.take credit name)
  rintro (_ | node)
  · exact Spends.throw _ _
  · exact Spends.pure (Nat.le_refl _)

theorem Spends.string (credit : Nat) (name : String) :
    Spends credit (string name : Fields ε _) fun _ => credit := by
  apply Spends.bind (Spends.required credit name)
  intro node members value rest h
  exact Nat.le_trans (Nat.add_le_add_right (Nat.le_add_right _ _) _) (Spends.lift _ _ _ _ _ h)

theorem Spends.array (credit : Nat) (name : String) :
    Spends credit (array name : Fields ε _) fun values => credit + Node.sizeValues values + 1 := by
  apply Spends.bind (Spends.required credit name)
  intro node members values rest h
  obtain ⟨values', hvalues, heq⟩ := Lib.Except.bind_eq_ok.mp h
  cases heq
  cases node with
  | array =>
    cases hvalues
    simp only [Node.size]
    omega
  | _ => cases hvalues

theorem Spends.usize (credit : Nat) (name : String) :
    Spends credit (usize name : Fields ε _) fun _ => credit := by
  apply Spends.bind (Spends.required credit name)
  intro node members value rest h
  exact Nat.le_trans (Nat.add_le_add_right (Nat.le_add_right _ _) _) (Spends.lift _ _ _ _ _ h)

/-- What is read of an object is smaller than the object. -/
theorem Spends.read {node : Node} {m : Fields ε α} {cost : α → Nat} {a : α}
    (hm : Spends 0 m cost) (h : read node m = .ok a) : cost a < node.size := by
  obtain ⟨members, hnew, h⟩ := Lib.Except.bind_eq_ok.mp h
  obtain ⟨⟨a', rest⟩, hrun, heq⟩ := Lib.Except.bind_eq_ok.mp h
  cases heq
  cases node with
  | object =>
    cases hnew
    have := hm _ _ _ hrun
    simp only [Node.size]
    omega
  | _ => cases hnew

end Sizes

end Fields

end KRust.Json
