import KRust.Json.Tree
import KRust.Lib.Worklist

/-!
The text of a JSON tree, compact or pretty. A formatter says what is written around the
values; the loop over the tasks of a tree writes the rest. The compact formatter and the
texts of single tokens are the serialization library's.
-/

set_option linter.unusedSectionVars false

namespace KRust.Json

open KRust.Lib

/-- `Formatter`: each call gives the next state and what it writes. The flag of a value or
a key says whether it is the first one. -/
structure Formatter (F : Type) where
  beginArray : F → F × List Char
  endArray : F → F × List Char
  beginArrayValue : Bool → F → F × List Char
  endArrayValue : F → F × List Char
  beginObject : F → F × List Char
  endObject : F → F × List Char
  beginObjectKey : Bool → F → F × List Char
  endObjectKey : F → F × List Char
  beginObjectValue : F → F × List Char
  endObjectValue : F → F × List Char

/-- How the serialization library writes single tokens. -/
structure TokenWriter where
  null : List Char
  bool : Bool → List Char
  number : List Char → List Char
  string : String → List Char

/-- The text of a number. -/
def decimal (n : Nat) : List Char := Nat.toDigits 10 n

section Pretty

/-- `PRETTY_INDENT_CAP` -/
def prettyIndentCap : Nat := 100

/-- `PRETTY_INDENT_STEP` -/
def prettyIndentStep : Nat := 2

/-- `CappedPrettyFormatter`: the open arrays and objects, and whether the innermost one
has a value. -/
structure PrettyState where
  depth : Nat
  hasValue : Bool

def indentation (depth : Nat) : Nat := min (depth * prettyIndentStep) prettyIndentCap

def writeNewline (spaces : Nat) : List Char :=
  '\n' :: List.replicate (min spaces prettyIndentCap) ' '

def PrettyState.opened (s : PrettyState) : PrettyState := ⟨s.depth + 1, false⟩

def PrettyState.closed (s : PrettyState) (mark : Char) : PrettyState × List Char :=
  ({ s with depth := s.depth - 1 },
    (if s.hasValue then writeNewline (indentation (s.depth - 1)) else []) ++ [mark])

def PrettyState.item (s : PrettyState) (first : Bool) : PrettyState × List Char :=
  (s, (if first then [] else [',']) ++ writeNewline (indentation s.depth))

def PrettyState.written (s : PrettyState) : PrettyState × List Char :=
  ({ s with hasValue := true }, [])

def cappedPretty : Formatter PrettyState where
  beginArray s := (s.opened, ['['])
  endArray s := s.closed ']'
  beginArrayValue first s := s.item first
  endArrayValue s := s.written
  beginObject s := (s.opened, ['\x7b'])
  endObject s := s.closed '\x7d'
  beginObjectKey first s := s.item first
  endObjectKey s := (s, [])
  beginObjectValue s := (s, [':', ' '])
  endObjectValue s := s.written

end Pretty

section Writer

inductive Task where
  | node (node : Node)
  | arrayValue (value : Node) (first : Bool)
  | endArrayValue
  | endArray
  | member (key : String) (value : Node) (first : Bool)
  | endObjectValue
  | endObject

variable {F : Type} (formatter : Formatter F) (writer : TokenWriter)

/-- Something is written after what was written so far. -/
def put (output : List Char) (written : F × List Char) : F × List Char :=
  (written.1, output ++ written.2)

/-- What is written when a task is taken. -/
def Task.write : Task → F × List Char → F × List Char
  | .node .null, (s, output) => (s, output ++ writer.null)
  | .node (.bool value), (s, output) => (s, output ++ writer.bool value)
  | .node (.number token), (s, output) => (s, output ++ writer.number token)
  | .node (.string value), (s, output) => (s, output ++ writer.string value)
  | .node (.array _), (s, output) => put output (formatter.beginArray s)
  | .node (.object _), (s, output) => put output (formatter.beginObject s)
  | .arrayValue _ first, (s, output) => put output (formatter.beginArrayValue first s)
  | .endArrayValue, (s, output) => put output (formatter.endArrayValue s)
  | .endArray, (s, output) => put output (formatter.endArray s)
  | .member key _ first, (s, output) =>
    let (s, output) := put output (formatter.beginObjectKey first s)
    let (s, output) := put (output ++ writer.string key) (formatter.endObjectKey s)
    put output (formatter.beginObjectValue s)
  | .endObjectValue, (s, output) => put output (formatter.endObjectValue s)
  | .endObject, (s, output) => put output (formatter.endObject s)

def Task.pending : Task → List Task
  | .node (.array values) =>
    (values.mapIdx fun index value => .arrayValue value (index = 0)) ++ [.endArray]
  | .node (.object members) =>
    (members.mapIdx fun index member => .member member.1 member.2 (index = 0)) ++ [.endObject]
  | .arrayValue value _ => [.node value, .endArrayValue]
  | .member _ value _ => [.node value, .endObjectValue]
  | _ => []

/-- A bound on the tasks that a task leads to. -/
def Task.weight : Task → Nat
  | .node root => 4 * root.size - 2
  | .arrayValue value _ | .member _ value _ => 4 * value.size
  | _ => 1

theorem sum_mapIdx {α : Type} (xs : List α) (task : Nat → α → Task) (weight : α → Nat)
    (h : ∀ index x, (task index x).weight = weight x) :
    ((xs.mapIdx task).map Task.weight).sum = (xs.map weight).sum := by
  induction xs generalizing task with
  | nil => rfl
  | cons x xs ih =>
    rw [List.mapIdx_cons, List.map_cons, List.sum_cons, h, ih _ fun index x => h (index + 1) x]
    rfl

theorem sum_scaled {α : Type} (xs : List α) (size : α → Nat) :
    (xs.map fun x => 4 * size x).sum = 4 * (xs.map size).sum := by
  induction xs with
  | nil => rfl
  | cons x xs ih =>
    simp only [List.map_cons, List.sum_cons, ih]
    omega

theorem Task.pending_lighter (t : Task) : (t.pending.map weight).sum < t.weight := by
  cases t with
  | node root =>
    cases root with
    | array values =>
      rw [pending, List.map_append, List.sum_append,
        sum_mapIdx values _ (fun value => 4 * value.size) fun _ _ => rfl, sum_scaled,
        ← Node.sizeValues_eq]
      simp only [weight, List.map_cons, List.map_nil, List.sum_cons, List.sum_nil, Node.size]
      omega
    | object members =>
      rw [pending, List.map_append, List.sum_append,
        sum_mapIdx members _ (fun member => 4 * member.2.size) fun _ _ => rfl, sum_scaled,
        ← Node.sizeMembers_eq]
      simp only [weight, List.map_cons, List.map_nil, List.sum_cons, List.sum_nil, Node.size]
      omega
    | _ => simp [pending, weight, Node.size]
  | arrayValue value | member key value =>
    have := value.one_le_size
    simp only [pending, weight, List.map_cons, List.map_nil, List.sum_cons, List.sum_nil]
    omega
  | _ => simp [pending, weight]

/-- `write_node`: the loop over the tasks of a tree. -/
def writeNode : Worklist Task (F × List Char) where
  step t s := some (t.write formatter writer s)
  pending := Task.pending
  weight := Task.weight
  lighter := Task.pending_lighter

end Writer

/-- What the text of a tree takes from the serialization library. -/
structure Serializer where
  reader : TokenReader
  writer : TokenWriter
  compact : Formatter Unit

/-- `to_string` -/
def toString (library : Serializer) (root : Node) (pretty : Bool) : Option (List Char) :=
  if pretty then
    Prod.snd <$> (writeNode cappedPretty library.writer).run [.node root] (⟨0, false⟩, [])
  else Prod.snd <$> (writeNode library.compact library.writer).run [.node root] ((), [])

end KRust.Json
