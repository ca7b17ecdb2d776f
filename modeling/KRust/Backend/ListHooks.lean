import KRust.Backend.SortGraph
import KRust.Domain.IntegerText
import KRust.Term.Chunks.Repeat
import KRust.Term.Chunks.SeekLaws
import KRust.Term.Chunks.JoinLaws

/-!
The concrete `LIST` hooks on the trees that lists hold their items in. An application gives an
answer or an error, or it stops the run (`none`): where an assertion fails or a count overflows.
-/

set_option linter.unusedSectionVars false

namespace KRust.Backend

open KRust.Kore
open KRust.Domain (printInt)
open KRust.Term.Chunks (Item Summary Chunked Branching usizeMax checkedSub
  repeatItem fromVec join splitAt replaceAt)

namespace ListHooks

theorem five_le_default : 5 ≤ 32 := by decide

/-- `DEFAULT_BRANCHING` -/
def listBranching : Branching := ⟨32, five_le_default⟩

/-- `Items<Term>` -/
abbrev Tree (T S G : Type) := Chunked T S G listBranching

/-- `TermKind::List` -/
structure ListNode (T S G : Type) where
  definition : ListDefinition
  heads : Tree T S G
  rest : Option (T × Tree T S G)

/-- What the hooks read of terms, and the terms they build. -/
class HookTerm (T : Type) (S G : outParam Type) where
  /-- The node of a term that is an internal list. -/
  asList : T → Option (ListNode T S G)
  /-- The payload of a domain value, with its sort. -/
  asDomainValue : T → Option (KoreSort × List UInt8)
  /-- The source sort of an injection, with what it injects. -/
  asInjection : T → Option (KoreSort × T)
  sort : T → KoreSort
  /-- `Term::new` of a list -/
  list : ListNode T S G → T
  injection : KoreSort → KoreSort → T → T
  int : Int → T
  bool : Bool → T
  /-- The equality of terms. -/
  same : T → T → Bool
  constructorLike : T → Bool
  /-- `terms_apart` -/
  apart : Option SortGraph → T → T → Bool
  sort_of_asList : ∀ {t node}, asList t = some node →
    sort t = .application node.definition.listSort []

inductive Undefinedness where
  | stated
  | undescribed
  deriving DecidableEq

inductive UnsupportedHookReason where
  | notImplemented
  | resultTooLarge (detail : String)
  deriving DecidableEq

/-- `BuiltinResult`, without the effects, which no list hook has. -/
inductive BuiltinResult (T : Type) where
  | notApplicable
  | value (term : T)
  | bottom (why : Undefinedness)
  | unsupported (reason : UnsupportedHookReason)

inductive BuiltinError where
  | wrongArity (hook : String) (expected actual : Nat)
  | unexpectedSort (hook : String) (expected actual : KoreSort)
  deriving DecidableEq

/-- `HookResult` -/
abbrev HookResult (T : Type) := Except BuiltinError (BuiltinResult T)

inductive Declared where
  | nothing
  | sort (collection : Option CollectionMetadata)

/-- The collection that a result is built in. -/
structure ResultCollection where
  declared : Declared
  sorts : Option SortGraph

/-- A list result that is being built. -/
structure ListResult where
  definition : ListDefinition
  sorts : Option SortGraph

section Definitions

variable {T K S G : Type} [Item T K S G] [LinearOrder K] [Summary S] [KRust.Term.Chunks.Group G] [HookTerm T S G]

def intSort : KoreSort := .application "SortInt" []

/-- `From<Option<Term>>` -/
def answer (built : Option T) : BuiltinResult T :=
  match built with
  | none => .notApplicable
  | some term => .value term

def expectArity (hook : String) (arguments : List T) (expected : Nat) :
    Except BuiltinError Unit :=
  if arguments.length = expected then .ok ()
  else .error (.wrongArity hook expected arguments.length)

def expectSort (hook : String) (term : T) (expected : KoreSort) : Except BuiltinError Unit :=
  let actual := HookTerm.sort term
  if actual = expected then .ok () else .error (.unexpectedSort hook expected actual)

/-- What is answered of an argument that is no integer literal. -/
def noInteger (hook : String) (term : T) : Option (HookResult T) :=
  match expectSort hook term intSort with
  | .error e => some (.error e)
  | .ok _ => some (.ok .notApplicable)

/-- `read_int`, with the parser of `BigInt`. -/
def readInt (parseInt : List Char → Option Int) (term : T) : Option Int := do
  let (sort, value) ← HookTerm.asDomainValue term
  if sort = intSort then parseInt (← Lib.Utf8.decode value) else none

/-- `BigInt::to_usize` -/
def toUsize (n : Int) : Option Nat :=
  if 0 ≤ n ∧ n ≤ usizeMax then some n.toNat else none

/-- `describe_int` -/
def describeInt (value : Int) : String :=
  let bits := value.natAbs.size
  if bits ≤ 64 then String.ofList (printInt value)
  else if value < 0 then "a negative " ++ toString bits ++ "-bit integer"
  else "a " ++ toString bits ++ "-bit integer"

def below (sorts : Option SortGraph) (sub sup : KoreSort) : Bool :=
  match sorts with
  | none => false
  | some sorts =>
    match sorts.checkSubsort sub sup with
    | .ok answer => answer
    | .error _ => false

def convert (sorts : Option SortGraph) (element : T) (source target : KoreSort) : Option T :=
  if source = target then some element
  else if below sorts source target then some (HookTerm.injection source target element)
  else none

/-- `convert_all` -/
def convertAll (sorts : Option SortGraph) (elements : List T) (source target : KoreSort) :
    Option (List T) :=
  if source = target then some elements
  else if below sorts source target then
    some (elements.map fun element => HookTerm.injection source target element)
  else none

/-- Whether an opaque rest may stand in a collection. -/
def fits (rest : T) (collectionSort : String) : Bool :=
  HookTerm.sort rest = .application collectionSort []

/-- `Term::list_of_items` -/
def listOfItems (definition : ListDefinition) (heads : Tree T S G)
    (rest : Option (T × Tree T S G)) : Option T := do
  let (heads, rest) ← (match rest with
    | none => some (heads, none)
    | some (middle, tails) =>
      match HookTerm.asList middle with
      | none => some (heads, some (middle, tails))
      | some nested =>
        if nested.definition = definition then do
          let heads ← join heads nested.heads
          match nested.rest with
          | some (nestedMiddle, nestedTails) =>
            some (heads, some (nestedMiddle, ← join nestedTails tails))
          | none => some (← join heads tails, none)
        else some (heads, some (middle, tails)) : Option (Tree T S G × Option (T × Tree T S G)))
  match rest with
  | some (middle, tails) =>
    if heads.isEmpty && tails.isEmpty then some middle
    else some (HookTerm.list ⟨definition, heads, rest⟩)
  | none => some (HookTerm.list ⟨definition, heads, none⟩)

namespace ResultCollection

def list (result : ResultCollection) (source : Option ListDefinition) : Option ListResult :=
  match result.declared with
  | .nothing => source.map fun definition => ⟨definition, result.sorts⟩
  | .sort (some (.list definition)) => some ⟨definition, result.sorts⟩
  | .sort _ => none

end ResultCollection

namespace ListResult

/-- `ListResult::element` -/
def element (into : ListResult) (element : T) : Option T :=
  convert into.sorts element (HookTerm.sort element) into.definition.elementSort

/-- `ListResult::items`: the tree itself, or one of the converted items. -/
def items (into : ListResult) (items : Tree T S G) (source : KoreSort) :
    Option (Option (Tree T S G)) :=
  if source = into.definition.elementSort then some (some items)
  else
    match convertAll into.sorts items.items source into.definition.elementSort with
    | none => some none
    | some converted => do return some (← fromVec listBranching converted)

/-- `ListResult::build_items` -/
def buildItems (into : ListResult) (heads : Tree T S G) (rest : Option (T × Tree T S G)) :
    Option (Option T) :=
  match rest with
  | none => do return some (← listOfItems into.definition heads none)
  | some (middle, tails) =>
    if fits middle into.definition.listSort then do
      return some (← listOfItems into.definition heads (some (middle, tails)))
    else some none

/-- `ListResult::build` of a list without a rest. -/
def build (into : ListResult) (heads : List T) : Option (Option T) := do
  into.buildItems (← fromVec listBranching heads) none

end ListResult

end Definitions

section Hooks

variable {T K S G : Type} [Item T K S G] [LinearOrder K] [Summary S] [KRust.Term.Chunks.Group G] [HookTerm T S G]
  (parseInt : List Char → Option Int)

/-- The items of both lists of a concatenation, as heads and a rest: `none` where the lists
decline it. -/
def concatenated (into : ListResult) (left right : ListNode T S G) :
    Option (Option (Tree T S G × Option (T × Tree T S G))) := do
  let source := left.definition.elementSort
  match ← into.items left.heads source, ← into.items right.heads source with
  | some leftHeads, some rightHeads =>
    match left.rest, right.rest with
    | none, some (middle, tails) =>
      match ← into.items tails source with
      | none => return none
      | some tails => return some (← join leftHeads rightHeads, some (middle, tails))
    | none, none => return some (← join leftHeads rightHeads, none)
    | some (middle, tails), none =>
      match ← into.items tails source with
      | none => return none
      | some tails => return some (leftHeads, some (middle, ← join tails rightHeads))
    | some _, some _ => return none
  | _, _ => return none

def concatTerms (left right : T) (result : ResultCollection) : Option (Option T) :=
  match HookTerm.asList left, HookTerm.asList right with
  | some left, some right =>
    if left.definition ≠ right.definition then some none
    else
      match result.list (some left.definition) with
      | none => some none
      | some into => do
        match ← concatenated into left right with
        | none => return none
        | some (heads, rest) => into.buildItems heads rest
  | some ⟨definition, heads, none⟩, none =>
    match result.list (some definition) with
    | none => some none
    | some into => do
      match ← into.items heads definition.elementSort with
      | none => return none
      | some heads => into.buildItems heads (some (right, Chunked.new))
  | none, some ⟨definition, heads, none⟩ =>
    match result.list (some definition) with
    | none => some none
    | some into => do
      match ← into.items heads definition.elementSort with
      | none => return none
      | some heads => into.buildItems Chunked.new (some (left, heads))
  | _, _ => some none

/-- `L1 L2` -/
def concat (arguments : List T) (result : ResultCollection) : Option (HookResult T) :=
  match expectArity "LIST.concat" arguments 2 with
  | .error e => some (.error e)
  | .ok _ =>
    match arguments with
    | [left, right] => do return .ok (answer (← concatTerms left right result))
    | _ => none

def element (arguments : List T) (result : ResultCollection) : Option (HookResult T) :=
  match expectArity "LIST.element" arguments 1 with
  | .error e => some (.error e)
  | .ok _ =>
    match arguments with
    | [argument] =>
      match result.list none with
      | none => some (.ok .notApplicable)
      | some into =>
        match into.element argument with
        | none => some (.ok .notApplicable)
        | some element => do return .ok (answer (← into.build [element]))
    | _ => none

/-- What an index outside a list gives: the end of an open list is not known. -/
def outside (node : ListNode T S G) (why : Undefinedness) : BuiltinResult T :=
  if node.rest.isNone then .bottom why else .notApplicable

/-- The item at a position, or what an index outside the list gives. -/
def itemAt (node : ListNode T S G) (tree : Tree T S G) (index : Option Nat) : Option (HookResult T) :=
  match index with
  | none => some (.ok (outside node .stated))
  | some index => do
    match ← KRust.Term.Chunks.get tree index with
    | some item => return .ok (.value item)
    | none => return .ok (outside node .stated)

def get (arguments : List T) : Option (HookResult T) :=
  match expectArity "LIST.get" arguments 2 with
  | .error e => some (.error e)
  | .ok _ =>
    match arguments with
    | [list, index] =>
      match HookTerm.asList list with
      | none => some (.ok .notApplicable)
      | some node =>
        if node.heads.isEmpty && node.rest.isNone then some (.ok (.bottom .stated))
        else
          match readInt parseInt index with
          | none => noInteger "LIST.get" index
          | some value =>
            if 0 ≤ value then itemAt node node.heads (toUsize value)
            else
              match toUsize (-value) with
              | none => some (.ok (outside node .stated))
              | some distance =>
                let knownTail := match node.rest with
                  | none => node.heads
                  | some (_, tails) => tails
                match checkedSub distance 1 with
                | none => some (.ok (outside node .stated))
                | some offset => do
                  itemAt node knownTail
                    (checkedSub knownTail.len (← Term.Chunks.checkedAdd offset 1))
    | _ => none

/-- An item operand, read against the elements of a collection. -/
inductive Operand (T : Type) where
  | element (term : T)
  | wider (item : T) (sort : KoreSort)
  | unrelated

/-- `collection_item::read` -/
def Operand.read (sorts : Option SortGraph) (item : T) (elementSort : KoreSort) : Operand T :=
  let itemSort := HookTerm.sort item
  if itemSort = elementSort then .element item
  else if below sorts itemSort elementSort then
    .element (HookTerm.injection itemSort elementSort item)
  else if !below sorts elementSort itemSort then .unrelated
  else
    match HookTerm.asInjection item with
    | some (source, term) =>
      if source = elementSort then .element term
      else if below sorts source elementSort then
        .element (HookTerm.injection source elementSort term)
      else .wider item itemSort
    | none => .wider item itemSort

/-- `values_differ` -/
def valuesDiffer (sorts : Option SortGraph) (left right : T) : Bool :=
  (HookTerm.constructorLike left && HookTerm.constructorLike right &&
    !HookTerm.same left right) || HookTerm.apart sorts left right

/-- `absent_above` -/
def absentAbove (sorts : Option SortGraph) (item : T) (sort elementSort : KoreSort)
    (elements : List T) : Bool :=
  elements.all fun element =>
    valuesDiffer sorts item (HookTerm.injection elementSort sort element)

/-- `E in L` -/
def contains (arguments : List T) (sorts : Option SortGraph) : Option (HookResult T) :=
  match expectArity "LIST.in" arguments 2 with
  | .error e => some (.error e)
  | .ok _ =>
    match arguments with
    | [element, list] =>
      match HookTerm.asList list with
      | none => some (.ok .notApplicable)
      | some node =>
        let elementSort := node.definition.elementSort
        let decided (absent : Bool) : BuiltinResult T :=
          if node.rest.isNone && absent then .value (HookTerm.bool false) else .notApplicable
        match Operand.read sorts element elementSort with
        | .unrelated => some (.ok .notApplicable)
        | .wider item sort =>
          some (.ok (decided (absentAbove sorts item sort elementSort node.heads.items)))
        | .element element =>
          let tails := match node.rest with
            | none => []
            | some (_, tails) => tails.items
          if (node.heads.items ++ tails).any fun item => HookTerm.same item element then
            some (.ok (.value (HookTerm.bool true)))
          else
            some (.ok (decided (node.heads.items.all fun head => valuesDiffer sorts element head)))
    | _ => none

/-- `bounded_list_length` -/
def boundedListLength (length : Int) : Except UnsupportedHookReason Nat :=
  match toUsize length with
  | some length => .ok length
  | none => .error (.resultTooLarge ("a List result of length " ++ describeInt length ++
      " is longer than the " ++ toString usizeMax ++ " items a list counts on this target"))

/-- `makeList(N, V)` -/
def make (arguments : List T) (result : ResultCollection) : Option (HookResult T) :=
  match expectArity "LIST.make" arguments 2 with
  | .error e => some (.error e)
  | .ok _ =>
    match arguments with
    | [length, value] =>
      match readInt parseInt length with
      | none => noInteger "LIST.make" length
      | some length =>
        match result.list none with
        | none => some (.ok .notApplicable)
        | some into =>
          match into.element value with
          | none => some (.ok .notApplicable)
          | some value =>
            if length < 0 then some (.ok (.bottom .stated))
            else
              match boundedListLength length with
              | .error reason => some (.ok (.unsupported reason))
              | .ok length => do
                let copies ← repeatItem listBranching value length
                return .ok (answer (← into.buildItems copies none))
    | _ => none

/-- `range` between positions that are machine numbers. -/
def rangeBetween (into : ListResult) (node : ListNode T S G) (front back : Option Nat) :
    Option (HookResult T) :=
  let source := node.definition.elementSort
  match node.rest, front, back with
  | none, some front, some back =>
    match checkedSub node.heads.len back with
    | none => some (.ok (.bottom .undescribed))
    | some stop =>
      if stop < front then some (.ok (.bottom .undescribed))
      else do
        let (_, kept) ← splitAt node.heads front
        let (range, _) ← splitAt kept (← checkedSub stop front)
        match ← into.items range source with
        | none => return .ok .notApplicable
        | some range => return .ok (answer (← into.buildItems range none))
  | none, _, _ => some (.ok (.bottom .undescribed))
  | some (middle, tails), some front, some back =>
    if node.heads.len < front ∨ tails.len < back then some (.ok .notApplicable)
    else do
      let (_, heads) ← splitAt node.heads front
      let (tails, _) ← splitAt tails (← checkedSub tails.len back)
      match ← into.items heads source, ← into.items tails source with
      | some heads, some tails => return .ok (answer (← into.buildItems heads (some (middle, tails))))
      | _, _ => return .ok .notApplicable
  | some _, _, _ => some (.ok .notApplicable)

/-- `range(L, front, back)` -/
def range (arguments : List T) (result : ResultCollection) : Option (HookResult T) :=
  match expectArity "LIST.range" arguments 3 with
  | .error e => some (.error e)
  | .ok _ =>
    match arguments with
    | [list, fromFront, fromBack] =>
      match HookTerm.asList list with
      | none => some (.ok .notApplicable)
      | some node =>
        match readInt parseInt fromFront with
        | none => noInteger "LIST.range" fromFront
        | some front =>
          match readInt parseInt fromBack with
          | none => noInteger "LIST.range" fromBack
          | some back =>
            match result.list (some node.definition) with
            | none => some (.ok .notApplicable)
            | some into =>
              if front < 0 ∨ back < 0 then some (.ok (.bottom .undescribed))
              else rangeBetween into node (toUsize front) (toUsize back)
    | _ => none

def size (arguments : List T) : Option (HookResult T) :=
  match expectArity "LIST.size" arguments 1 with
  | .error e => some (.error e)
  | .ok _ =>
    match arguments with
    | [list] =>
      match HookTerm.asList list with
      | some ⟨_, heads, none⟩ => some (.ok (.value (HookTerm.int heads.len)))
      | _ => some (.ok .notApplicable)
    | _ => none

def unit (arguments : List T) (result : ResultCollection) : Option (HookResult T) :=
  match expectArity "LIST.unit" arguments 0 with
  | .error e => some (.error e)
  | .ok _ =>
    match result.list none with
    | none => some (.ok .notApplicable)
    | some into => do return .ok (answer (← into.build []))

/-- The rest of an updated list, its tails as items of the result. -/
def updatedRest (into : ListResult) (node : ListNode T S G) :
    Option (Option (Option (T × Tree T S G))) :=
  match node.rest with
  | none => some (some none)
  | some (middle, tails) => do
    match ← into.items tails node.definition.elementSort with
    | none => return none
    | some tails => return some (some (middle, tails))

/-- `update` at a position of the heads. -/
def updateAt (into : ListResult) (node : ListNode T S G) (index : Nat) (value : T) :
    Option (HookResult T) := do
  let source := node.definition.elementSort
  match ← updatedRest into node with
  | none => return .ok .notApplicable
  | some rest =>
    match ← into.items node.heads source, into.element value with
    | some heads, some value =>
      return .ok (answer (← into.buildItems (← replaceAt heads index value) rest))
    | _, _ => return .ok .notApplicable

/-- `L[index <- value]` -/
def update (arguments : List T) (result : ResultCollection) : Option (HookResult T) :=
  match expectArity "LIST.update" arguments 3 with
  | .error e => some (.error e)
  | .ok _ =>
    match arguments with
    | [list, index, value] =>
      match HookTerm.asList list with
      | none => some (.ok .notApplicable)
      | some node =>
        match readInt parseInt index with
        | none => noInteger "LIST.update" index
        | some index =>
          match result.list (some node.definition) with
          | none => some (.ok .notApplicable)
          | some into =>
            if index < 0 then some (.ok (.bottom .undescribed))
            else
              match toUsize index with
              | none => some (.ok (outside node .undescribed))
              | some index =>
                if node.heads.len ≤ index then some (.ok (outside node .undescribed))
                else updateAt into node index value
    | _ => none

/-- `update_all` from a position on. -/
def updateAllAt (into : ListResult) (definition : ListDefinition) (original updates : Tree T S G)
    (index stop : Nat) : Option (HookResult T) := do
  let source := definition.elementSort
  match ← into.items original source, ← into.items updates source with
  | some original, some updates =>
    let (before, replaced) ← splitAt original index
    let (_, after) ← splitAt replaced (← checkedSub stop index)
    return .ok (answer (← into.buildItems (← join (← join before updates) after) none))
  | _, _ => return .ok .notApplicable

/-- `updateList(dest, index, src)` -/
def updateAll (arguments : List T) (result : ResultCollection) : Option (HookResult T) :=
  match expectArity "LIST.updateAll" arguments 3 with
  | .error e => some (.error e)
  | .ok _ =>
    match arguments with
    | [original, index, updates] =>
      match HookTerm.asList original, HookTerm.asList updates with
      | some ⟨definition, original, none⟩, some ⟨updateDefinition, updates, none⟩ =>
        if definition ≠ updateDefinition then some (.ok .notApplicable)
        else
          match readInt parseInt index with
          | none => noInteger "LIST.updateAll" index
          | some index =>
            match result.list (some definition) with
            | none => some (.ok .notApplicable)
            | some into =>
              if index < 0 then some (.ok (.bottom .undescribed))
              else
                match toUsize index with
                | none => some (.ok (.bottom .undescribed))
                | some index =>
                  match Term.Chunks.checkedAdd index updates.len with
                  | none => some (.ok (.bottom .undescribed))
                  | some stop =>
                    if original.len < stop then some (.ok (.bottom .undescribed))
                    else updateAllAt into definition original updates index stop
      | _, _ => some (.ok .notApplicable)
    | _ => none

def evaluate (hook : String) (arguments : List T) (sorts : Option SortGraph)
    (result : ResultCollection) : Option (HookResult T) :=
  match hook with
  | "LIST.concat" => concat arguments result
  | "LIST.element" => element arguments result
  | "LIST.in" => contains arguments sorts
  | "LIST.size" => size arguments
  | "LIST.unit" => unit arguments result
  | "LIST.get" => get parseInt arguments
  | "LIST.make" => make parseInt arguments result
  | "LIST.range" => range parseInt arguments result
  | "LIST.update" => update parseInt arguments result
  | "LIST.updateAll" => updateAll parseInt arguments result
  | _ => some (.ok (.unsupported .notImplemented))

end Hooks

end ListHooks

end KRust.Backend
