import KRust.Kast.Ast
import KRust.Json.Fields
import KRust.Json.Write

/-!
KAST JSON: the tree of a term inside its envelope, and the reading of one. Terms and sorts
are written and read one node at a time, with the nodes that are open on a stack.
-/

set_option linter.unusedSectionVars false

namespace KRust.Kast.Json

open KRust.Lib
open KRust.Json (Node Fields Serializer TokenReader decimal)

def format : String := "KAST"

def version : Nat := 4

inductive Error where
  | syntaxError (error : KRust.Json.Error)
  | shape (message : String)
  | unsupportedFormat (format : String)
  | unsupportedVersion (version : Nat)
  | invalidArity (node : String) (declared actual : Nat)
  deriving DecidableEq

instance : KRust.Json.ShapeError Error := ⟨.shape⟩

section Sorts

def checkNumeral (name : String) : Except Error Unit :=
  match numeralSpelling name.toList with
  | .nonCanonical canonical => .error (.shape ("numeral sort " ++ name
    ++ " is written with a leading zero; a width is spelled " ++ String.ofList canonical))
  | _ => .ok ()

/-- What is read of the members of a sort: its name and its parameters. -/
def sortMembers : Fields Error (String × List Node) := do
  let tag ← Fields.string "node"
  if tag ≠ "KSort" then throw (.shape ("unknown variant `" ++ tag ++ "`, expected `KSort`"))
  let name ← Fields.string "name"
  (checkNumeral name : Except Error Unit)
  return (name, ← Fields.array "params")

def sortHead (node : Node) : Except Error (String × List Node) := Fields.read node sortMembers

theorem sortMembers_spends :
    Fields.Spends 0 sortMembers fun head => (head.2.map Node.size).sum := by
  apply Fields.Spends.bind (Fields.Spends.string 0 "node")
  intro tag
  have hrest : Fields.Spends 0 (do
        let name ← Fields.string "name"
        (checkNumeral name : Except Error Unit)
        return (name, ← Fields.array "params") : Fields Error (String × List Node))
      fun head => (head.2.map Node.size).sum := by
    apply Fields.Spends.bind (Fields.Spends.string 0 "name")
    intro name
    apply Fields.Spends.bind (Fields.Spends.lift 0 (checkNumeral name))
    intro _
    apply Fields.Spends.bind (Fields.Spends.array 0 "params")
    intro parameters
    apply Fields.Spends.pure
    rw [Node.sizeValues_eq]
    exact Nat.le_succ_of_le (Nat.le_add_left _ _)
  split
  · exact Fields.Spends.bind (Fields.Spends.throw _ fun _ => 0) fun _ => hrest
  · exact hrest

theorem sortHead_smaller {node : Node} {name : String} {children : List Node}
    (h : sortHead node = .ok (name, children)) : (children.map Node.size).sum < node.size :=
  sortMembers_spends.read h

/-- The building of a sort from its tree. -/
def sortBuilder : Builder Node String KSort Error where
  enter := sortHead
  finish name built := .ok (.mk name built)
  size := Node.size
  smaller := sortHead_smaller

def buildSort (root : Node) : Except Error KSort := sortBuilder.build root

def buildSorts (nodes : List Node) : Except Error (List KSort) := nodes.mapM buildSort

/-- The writing of a sort as a tree. -/
def sortWriter : Builder KSort KSort Node String where
  enter s := .ok (s, s.parameters)
  finish s built := .ok (.object
    [("node", .string "KSort"), ("name", .string s.name), ("params", .array built)])
  size := KSort.size
  smaller := by
    rintro ⟨name, parameters⟩ _ _ ⟨⟩
    simp [KSort.size, KSort.sizeList_eq]

def sortNode (root : KSort) : Except String Node := sortWriter.build root

end Sorts

section Labels

def labelMembers : Fields Error Label := do
  let tag ← Fields.string "node"
  if tag ≠ "KLabel" then throw (.shape ("unknown variant `" ++ tag ++ "`, expected `KLabel`"))
  let name ← Fields.string "name"
  let parameters ← Fields.array "params"
  return ⟨name, ← (buildSorts parameters : Except Error (List KSort))⟩

def buildLabel (node : Node) : Except Error Label := Fields.read node labelMembers

def labelNode (label : Label) : Except String Node := do
  return .object [("node", .string "KLabel"), ("name", .string label.name),
    ("params", .array (← label.parameters.mapM sortNode))]

end Labels

section Terms

/-- What is read of a term before its children. -/
inductive TermHead where
  | token (sort : KSort) (token : String)
  | apply (label : Label)
  | sequence
  | var (name : String) (sort : Option KSort)
  | rewrite
  | as
  | injectedLabel (label : Label)

def checkArity (node : String) (declared : Nat) (children : List Node) : Except Error Unit :=
  if declared = children.length then .ok ()
  else .error (.invalidArity node declared children.length)

/-- What is read of the members of a term: the members that cannot nest are read, and an
arity checked, before a sort or a label is built. Members that are not used are ignored. -/
def termMembers : Fields Error (TermHead × List Node) := do
  let tag ← Fields.string "node"
  match tag with
  | "KToken" =>
    let token ← Fields.string "token"
    let node ← Fields.required "sort"
    return (.token (← (buildSort node : Except Error KSort)) token, [])
  | "KApply" =>
    let label ← Fields.required "label"
    let declared ← Fields.usize "arity"
    let children ← Fields.array "args"
    (checkArity "KApply" declared children : Except Error Unit)
    return (.apply (← (buildLabel label : Except Error Label)), children)
  | "KSequence" =>
    let declared ← Fields.usize "arity"
    let children ← Fields.array "items"
    (checkArity "KSequence" declared children : Except Error Unit)
    return (.sequence, children)
  | "KVariable" =>
    let name ← Fields.string "name"
    let node ← Fields.take "sort"
    return (.var name (← (node.mapM buildSort : Except Error (Option KSort))), [])
  | "KRewrite" => return (.rewrite, [← Fields.required "lhs", ← Fields.required "rhs"])
  | "KAs" => return (.as, [← Fields.required "pattern", ← Fields.required "alias"])
  | "InjectedKLabel" =>
    let label ← Fields.required "label"
    return (.injectedLabel (← (buildLabel label : Except Error Label)), [])
  | tag => throw (.shape ("unknown variant `" ++ tag ++ "`, expected a KAST term node"))

def termHead (node : Node) : Except Error (TermHead × List Node) := Fields.read node termMembers

theorem termMembers_spends :
    Fields.Spends 0 termMembers fun head => (head.2.map Node.size).sum := by
  apply Fields.Spends.bind (Fields.Spends.string 0 "node")
  intro tag
  split
  case h_1 =>
    apply Fields.Spends.bind (Fields.Spends.string 0 "token")
    intro token
    apply Fields.Spends.bind (Fields.Spends.required 0 "sort")
    intro node
    apply Fields.Spends.bind (Fields.Spends.lift _ (buildSort node))
    intro sort
    exact Fields.Spends.pure (Nat.zero_le _)
  case h_2 =>
    apply Fields.Spends.bind (Fields.Spends.required 0 "label")
    intro label
    apply Fields.Spends.bind (Fields.Spends.usize _ "arity")
    intro declared
    apply Fields.Spends.bind (Fields.Spends.array _ "args")
    intro children
    apply Fields.Spends.bind (Fields.Spends.lift _ (checkArity "KApply" declared children))
    intro _
    apply Fields.Spends.bind (Fields.Spends.lift _ (buildLabel label))
    intro label
    apply Fields.Spends.pure
    rw [Node.sizeValues_eq]
    dsimp only
    omega
  case h_3 =>
    apply Fields.Spends.bind (Fields.Spends.usize _ "arity")
    intro declared
    apply Fields.Spends.bind (Fields.Spends.array _ "items")
    intro children
    apply Fields.Spends.bind (Fields.Spends.lift _ (checkArity "KSequence" declared children))
    intro _
    apply Fields.Spends.pure
    rw [Node.sizeValues_eq]
    dsimp only
    omega
  case h_4 =>
    apply Fields.Spends.bind (Fields.Spends.string 0 "name")
    intro name
    apply Fields.Spends.bind (Fields.Spends.take 0 "sort")
    intro node
    apply Fields.Spends.bind (Fields.Spends.lift _ (node.mapM buildSort))
    intro sort
    exact Fields.Spends.pure (Nat.zero_le _)
  case h_5 | h_6 =>
    apply Fields.Spends.bind (Fields.Spends.required 0 _)
    intro left
    apply Fields.Spends.bind (Fields.Spends.required _ _)
    intro right
    apply Fields.Spends.pure
    simp
  case h_7 =>
    apply Fields.Spends.bind (Fields.Spends.required 0 "label")
    intro label
    apply Fields.Spends.bind (Fields.Spends.lift _ (buildLabel label))
    intro label
    exact Fields.Spends.pure (Nat.zero_le _)
  case h_8 => exact Fields.Spends.throw _ _

theorem termHead_smaller {node : Node} {head : TermHead} {children : List Node}
    (h : termHead node = .ok (head, children)) : (children.map Node.size).sum < node.size :=
  termMembers_spends.read h

variable {μ : Type}

/-- `Frame::finish`. A rewrite and an alias always have their two children. -/
def TermHead.finish (head : TermHead) (built : List (Term μ)) : Except Error (Term μ) :=
  match head, built with
  | .token sort text, _ => .ok (.token text sort)
  | .apply label, arguments => .ok (.apply label arguments)
  | .sequence, items => .ok (.sequence items)
  | .var name sort, _ => .ok (.var name sort)
  | .rewrite, left :: right :: _ => .ok (.rewrite left right)
  | .rewrite, _ => .error (.shape "KRewrite has a left child")
  | .as, pattern :: aliased :: _ => .ok (.as pattern aliased)
  | .as, _ => .error (.shape "KAs has a pattern child")
  | .injectedLabel label, _ => .ok (.injectedLabel label)

/-- The building of a term from its tree. -/
def termBuilder : Builder Node TermHead (Term μ) Error where
  enter := termHead
  finish := TermHead.finish
  size := Node.size
  smaller := termHead_smaller

def buildTerm (root : Node) : Except Error (Term μ) := termBuilder.build root

/-- `Frame::finish` of the writer, for a term without annotations at its root. -/
def finishNode (t : Term μ) (built : List Node) : Except String Node :=
  match t, built with
  | .token text sort, _ => do
    return .object [("node", .string "KToken"), ("sort", ← sortNode sort), ("token", .string text)]
  | .apply label arguments, children => do
    return .object [("node", .string "KApply"), ("label", ← labelNode label),
      ("arity", .number (decimal arguments.length)), ("args", .array children)]
  | .sequence items, children =>
    return .object [("node", .string "KSequence"), ("arity", .number (decimal items.length)),
      ("items", .array children)]
  | .var name none, _ => return .object [("node", .string "KVariable"), ("name", .string name)]
  | .var name (some sort), _ => do
    return .object [("node", .string "KVariable"), ("name", .string name),
      ("sort", ← sortNode sort)]
  | .rewrite _ _, left :: right :: _ =>
    return .object [("node", .string "KRewrite"), ("lhs", left), ("rhs", right)]
  | .rewrite _ _, _ => throw "KRewrite has a left child"
  | .as _ _, pattern :: aliased :: _ =>
    return .object [("node", .string "KAs"), ("pattern", pattern), ("alias", aliased)]
  | .as _ _, _ => throw "KAs has a pattern child"
  | .injectedLabel label, _ => do
    return .object [("node", .string "InjectedKLabel"), ("label", ← labelNode label)]
  | .annotated _ _, _ => throw "internal error: entered unreachable code"

/-- The writing of a term as a tree. -/
def termWriter : Builder (Term μ) (Term μ) Node String where
  enter t := .ok (t.unannotated, t.children)
  finish := finishNode
  size := Term.size
  smaller := by
    rintro t _ _ ⟨⟩
    exact t.sum_children_lt

def termNode (root : Term μ) : Except String Node := termWriter.build root

def envelopeNode (t : Term μ) : Except String Node := do
  return .object [("format", .string format), ("version", .number (decimal version)),
    ("term", ← termNode t)]

def toText (library : Serializer) (t : Term μ) (pretty : Bool) : Option (List Char) :=
  match envelopeNode t with
  | .ok node => KRust.Json.toString library node pretty
  | .error _ => none

/-- `to_string` -/
def toString (library : Serializer) (t : Term μ) : Option (List Char) := toText library t false

/-- `to_string_pretty` -/
def toStringPretty (library : Serializer) (t : Term μ) : Option (List Char) :=
  toText library t true

def envelopeMembers : Fields Error (String × Nat × Node) := do
  return (← Fields.string "format", ← Fields.u32 "version", ← Fields.required "term")

/-- `from_str` -/
def fromStr (tokens : TokenReader) (input : List Char) : Except Error (Term μ) :=
  match KRust.Json.parse tokens input with
  | .error e => .error (.syntaxError e)
  | .ok root => do
    let (format', version', term) ← Fields.read root envelopeMembers
    if format' ≠ format then throw (.unsupportedFormat format')
    if version' ≠ version then throw (.unsupportedVersion version')
    buildTerm term

end Terms

end KRust.Kast.Json
