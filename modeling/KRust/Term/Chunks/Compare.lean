import KRust.Term.Chunks.Root

/-!
The comparison of two chunked sequences. Two cursors walk the trees together and
skip a node both hold at one position. Whether two nodes are one is asked of
`shared`, the answers of `Arc::ptr_eq` in the order they are given; all that is
known of it is that one node equals itself.
-/

set_option linter.unusedSectionVars false

namespace KRust.Term.Chunks

variable {I K S G : Type} {B : Branching}

/-- What a cursor stands at. -/
inductive Next (I S G : Type) where
  | node (node : Node I S G)
  | item (item : I)

/-- How far above the items this stands. -/
def Next.level : Next I S G → Nat
  | .node below => below.height + 1
  | .item _ => 0

inductive Rest (I S G : Type) where
  | nodes (nodes : List (Node I S G))
  | items (items : List I)

namespace Rest

def isEmpty : Rest I S G → Bool
  | .nodes level => level.isEmpty
  | .items run => run.isEmpty

/-- The items left below a slice. -/
def contents : Rest I S G → List I
  | .nodes level => level.flatMap Node.items
  | .items run => run

noncomputable def size : Rest I S G → Nat
  | .nodes level => sizeOf level
  | .items run => run.length

end Rest

/-- The rest of a sequence being walked, innermost slice first. -/
structure Cursor (I S G : Type) where
  top : Rest I S G
  stack : List (Rest I S G)

namespace Cursor

def new (root : Option (Node I S G)) : Cursor I S G := ⟨.nodes root.toList, []⟩

/-- The loop of `peek`: what comes next, the exhausted slices above it dropped. -/
def peekFrom : Rest I S G → List (Rest I S G) → Option (Next I S G × Cursor I S G)
  | .nodes (node :: rest), stack => some (.node node, ⟨.nodes (node :: rest), stack⟩)
  | .items (item :: rest), stack => some (.item item, ⟨.items (item :: rest), stack⟩)
  | .nodes [], outer :: stack => peekFrom outer stack
  | .items [], outer :: stack => peekFrom outer stack
  | .nodes [], [] => none
  | .items [], [] => none
termination_by structural _ stack => stack

def peek (cursor : Cursor I S G) : Option (Next I S G × Cursor I S G) :=
  peekFrom cursor.top cursor.stack

/-- Step past what `peek` returned; a slice without a first entry is out of bounds. -/
def skip (cursor : Cursor I S G) : Option (Cursor I S G) :=
  match cursor.top with
  | .nodes (_ :: nodes) => some { cursor with top := .nodes nodes }
  | .items (_ :: items) => some { cursor with top := .items items }
  | _ => none

/-- `open`: replace the node `peek` returned by its contents. -/
def openNode (cursor : Cursor I S G) : Option (Cursor I S G) :=
  match cursor.peek with
  | some (.node node, cursor) => do
    let cursor ← cursor.skip
    let contents :=
      match node with
      | .leaf items _ => Rest.items items
      | .internal _ children _ => Rest.nodes children
    return ⟨contents, if cursor.top.isEmpty then cursor.stack else cursor.top :: cursor.stack⟩
  | some (.item _, cursor) => some cursor
  | none => some cursor

/-- The items left. -/
def contents (cursor : Cursor I S G) : List I :=
  cursor.top.contents ++ cursor.stack.flatMap Rest.contents

noncomputable def size (cursor : Cursor I S G) : Nat := cursor.top.size + (cursor.stack.map Rest.size).sum

end Cursor

structure Aligned (I S G : Type) where
  left : Cursor I S G
  right : Cursor I S G

namespace Aligned

/-- Open the taller of the two, both at an equal height. -/
def advance (one two : Next I S G) (left right : Cursor I S G) :
    Option (Option (Option (I × I) × Aligned I S G)) := do
  let left ← (if one.level ≥ two.level then left.openNode else some left : Option _)
  let right ← (if two.level ≥ one.level then right.openNode else some right : Option _)
  return some (none, ⟨left, right⟩)

/-- One turn of the loop of `next`: the end of the walk, a pair of items, or only a
step of the cursors. -/
def turn (shared : Node I S G → Node I S G → Bool) (walk : Aligned I S G) :
    Option (Option (Option (I × I) × Aligned I S G)) :=
  match walk.left.peek, walk.right.peek with
  | some (.node one, left), some (.node two, right) =>
    if shared one two then do return some (none, ⟨← left.skip, ← right.skip⟩)
    else advance (.node one) (.node two) left right
  | some (.item one, left), some (.item two, right) => do
    return some (some (one, two), ⟨← left.skip, ← right.skip⟩)
  | some (one, left), some (two, right) => advance one two left right
  | _, _ => some none

noncomputable def size (walk : Aligned I S G) : Nat := walk.left.size + walk.right.size

end Aligned

/-! What a step of the walk does to what is left on either side. -/

/-- A cursor whose first entry is what it stands at. -/
inductive Stands : Next I S G → Cursor I S G → Prop
  | node (below : Node I S G) (nodes : List (Node I S G)) (stack : List (Rest I S G)) :
      Stands (.node below) ⟨.nodes (below :: nodes), stack⟩
  | item (next : I) (items : List I) (stack : List (Rest I S G)) :
      Stands (.item next) ⟨.items (next :: items), stack⟩

namespace Cursor

theorem peekFrom_spec (top : Rest I S G) (stack : List (Rest I S G)) :
    (∀ next cursor, peekFrom top stack = some (next, cursor) → Stands next cursor ∧
      cursor.contents = contents ⟨top, stack⟩ ∧ cursor.size ≤ size ⟨top, stack⟩) ∧
    (peekFrom top stack = none → contents ⟨top, stack⟩ = []) := by
  -- An exhausted slice adds nothing to what is left.
  have hdrop : ∀ (empty outer : Rest I S G) (stack : List (Rest I S G)), empty.contents = [] →
      contents ⟨empty, outer :: stack⟩ = contents ⟨outer, stack⟩ ∧
        size ⟨outer, stack⟩ ≤ size ⟨empty, outer :: stack⟩ := by
    intro empty outer stack hempty
    simp [contents, size, hempty]
  induction stack generalizing top with
  | nil =>
    match top with
    | .nodes [] => exact ⟨by simp [peekFrom], fun _ => rfl⟩
    | .items [] => exact ⟨by simp [peekFrom], fun _ => rfl⟩
    | .nodes (node :: rest) =>
      refine ⟨fun next cursor h => ?_, by simp [peekFrom]⟩
      obtain ⟨rfl, rfl⟩ := Prod.mk.inj (Option.some.inj h)
      exact ⟨.node node rest _, rfl, le_rfl⟩
    | .items (item :: rest) =>
      refine ⟨fun next cursor h => ?_, by simp [peekFrom]⟩
      obtain ⟨rfl, rfl⟩ := Prod.mk.inj (Option.some.inj h)
      exact ⟨.item item rest _, rfl, le_rfl⟩
  | cons outer stack ih =>
    match top with
    | .nodes (node :: rest) =>
      refine ⟨fun next cursor h => ?_, by simp [peekFrom]⟩
      obtain ⟨rfl, rfl⟩ := Prod.mk.inj (Option.some.inj h)
      exact ⟨.node node rest _, rfl, le_rfl⟩
    | .items (item :: rest) =>
      refine ⟨fun next cursor h => ?_, by simp [peekFrom]⟩
      obtain ⟨rfl, rfl⟩ := Prod.mk.inj (Option.some.inj h)
      exact ⟨.item item rest _, rfl, le_rfl⟩
    | .nodes [] =>
      obtain ⟨hcontents, hsize⟩ := hdrop (.nodes []) outer stack rfl
      rw [peekFrom, hcontents]
      refine ⟨fun next cursor h => ?_, (ih outer).2⟩
      obtain ⟨hstands, hsame, hle⟩ := (ih outer).1 next cursor h
      exact ⟨hstands, hsame, hle.trans hsize⟩
    | .items [] =>
      obtain ⟨hcontents, hsize⟩ := hdrop (.items []) outer stack rfl
      rw [peekFrom, hcontents]
      refine ⟨fun next cursor h => ?_, (ih outer).2⟩
      obtain ⟨hstands, hsame, hle⟩ := (ih outer).1 next cursor h
      exact ⟨hstands, hsame, hle.trans hsize⟩

variable {cursor : Cursor I S G}

theorem peek_some {next : Next I S G} {found : Cursor I S G} (h : cursor.peek = some (next, found)) :
    Stands next found ∧ found.contents = cursor.contents ∧ found.size ≤ cursor.size :=
  (peekFrom_spec cursor.top cursor.stack).1 next found h

theorem peek_none (h : cursor.peek = none) : cursor.contents = [] :=
  (peekFrom_spec cursor.top cursor.stack).2 h

@[simp] theorem peek_nodes (node : Node I S G) (nodes : List (Node I S G))
    (stack : List (Rest I S G)) :
    peek ⟨.nodes (node :: nodes), stack⟩ = some (.node node, ⟨.nodes (node :: nodes), stack⟩) := by
  rw [peek, peekFrom]

@[simp] theorem peek_items (item : I) (items : List I) (stack : List (Rest I S G)) :
    peek ⟨.items (item :: items), stack⟩ = some (.item item, ⟨.items (item :: items), stack⟩) := by
  rw [peek, peekFrom]

theorem skip_node {below : Node I S G} (h : Stands (.node below) cursor) :
    ∃ past, cursor.skip = some past ∧ cursor.contents = below.items ++ past.contents ∧
      past.size < cursor.size := by
  cases h with
  | node below nodes stack =>
    refine ⟨_, rfl, by simp [contents, Rest.contents], ?_⟩
    simp only [size, Rest.size, List.cons.sizeOf_spec]
    omega

theorem skip_item {next : I} (h : Stands (.item next) cursor) :
    ∃ past, cursor.skip = some past ∧ cursor.contents = next :: past.contents ∧
      past.size < cursor.size := by
  cases h with
  | item next items stack =>
    refine ⟨_, rfl, by simp [contents, Rest.contents], ?_⟩
    simp only [size, Rest.size, List.length_cons]
    omega

/-- Opening a node leaves the same items. -/
theorem openNode_node {below : Node I S G} (h : Stands (.node below) cursor) :
    ∃ opened, cursor.openNode = some opened ∧ opened.contents = cursor.contents ∧
      opened.size < cursor.size := by
  cases h with
  | node below nodes stack =>
    -- The slice left behind is stacked unless it is empty.
    have hstack : (if (Rest.nodes nodes).isEmpty then stack else .nodes nodes :: stack).flatMap
          Rest.contents = nodes.flatMap Node.items ++ stack.flatMap Rest.contents ∧
        ((if (Rest.nodes nodes).isEmpty then stack else .nodes nodes :: stack).map Rest.size).sum ≤
          sizeOf nodes + (stack.map Rest.size).sum := by
      cases nodes with
      | nil => simp [Rest.isEmpty]
      | cons node nodes => simp [Rest.isEmpty, Rest.contents, Rest.size]
    cases below with
    | leaf items summary =>
      refine ⟨_, by rw [openNode, peek_nodes]; rfl, ?_, ?_⟩
      · simp [contents, Rest.contents, hstack.1]
      · have hlen : items.length ≤ sizeOf items := by
          induction items with
          | nil => simp
          | cons item items ih =>
            simp only [List.length_cons, List.cons.sizeOf_spec]
            omega
        simp only [size, Rest.size, List.cons.sizeOf_spec, Node.leaf.sizeOf_spec]
        have := hstack.2
        omega
    | internal height children summary =>
      refine ⟨_, by rw [openNode, peek_nodes]; rfl, ?_, ?_⟩
      · simp [contents, Rest.contents, hstack.1]
      · simp only [size, Rest.size, List.cons.sizeOf_spec, Node.internal.sizeOf_spec]
        have := hstack.2
        omega

/-- Opening an item does nothing. -/
theorem openNode_item {next : I} (h : Stands (.item next) cursor) :
    cursor.openNode = some cursor := by
  cases h with
  | item next items stack => rw [openNode, peek_items]

end Cursor

namespace Aligned

/-- A step of the walk that yields no pair: both sides step over what they share, or
neither side loses an item. -/
structure Steps (shared : Node I S G → Node I S G → Bool) (walk next : Aligned I S G) : Prop where
  contents : (next.left.contents = walk.left.contents ∧ next.right.contents = walk.right.contents) ∨
    ∃ one two, shared one two = true ∧ walk.left.contents = one.items ++ next.left.contents ∧
      walk.right.contents = two.items ++ next.right.contents
  size : next.size < walk.size

/-- The taller of the two is opened. -/
theorem advance_steps (shared : Node I S G → Node I S G → Bool) {one two : Next I S G}
    {left right : Cursor I S G} (hone : Stands one left) (htwo : Stands two right)
    (hnode : 0 < one.level ∨ 0 < two.level) :
    ∃ next, advance one two left right = some (some (none, next)) ∧
      Steps shared ⟨left, right⟩ next := by
  -- A side that is opened loses no item, and stands at something smaller if it is a node.
  have hopen : ∀ (at' other : Next I S G) (cursor : Cursor I S G), Stands at' cursor →
      ∃ opened, (if at'.level ≥ other.level then cursor.openNode else some cursor) = some opened ∧
        opened.contents = cursor.contents ∧ opened.size ≤ cursor.size ∧
        (other.level ≤ at'.level → 0 < at'.level → opened.size < cursor.size) := by
    intro at' other cursor hstands
    split
    · cases at' with
      | node below =>
        obtain ⟨opened, hopened, hsame, hlt⟩ := Cursor.openNode_node hstands
        exact ⟨opened, hopened, hsame, hlt.le, fun _ _ => hlt⟩
      | item next =>
        refine ⟨cursor, Cursor.openNode_item hstands, rfl, le_rfl, fun _ hpos => ?_⟩
        exact absurd hpos (Nat.lt_irrefl 0)
    · next hlower =>
      exact ⟨cursor, rfl, rfl, le_rfl, fun hle => absurd hle hlower⟩
  obtain ⟨openedLeft, hleft, hleftSame, hleftLe, hleftLt⟩ := hopen one two left hone
  obtain ⟨openedRight, hright, hrightSame, hrightLe, hrightLt⟩ := hopen two one right htwo
  unfold advance
  rw [hleft, hright]
  refine ⟨⟨openedLeft, openedRight⟩, rfl, Or.inl ⟨hleftSame, hrightSame⟩, ?_⟩
  simp only [Aligned.size]
  rcases le_total two.level one.level with hle | hle
  · have := hleftLt hle (by omega)
    omega
  · have := hrightLt hle (by omega)
    omega

/-- What one turn of the walk does. -/
theorem turn_cases (shared : Node I S G → Node I S G → Bool) (walk : Aligned I S G) :
    (turn shared walk = some none ∧ (walk.left.contents = [] ∨ walk.right.contents = [])) ∨
    (∃ l r next, turn shared walk = some (some (some (l, r), next)) ∧
      walk.left.contents = l :: next.left.contents ∧
      walk.right.contents = r :: next.right.contents ∧ next.size < walk.size) ∨
    ∃ next, turn shared walk = some (some (none, next)) ∧ Steps shared walk next := by
  unfold turn
  cases hleft : walk.left.peek with
  | none => exact Or.inl ⟨rfl, Or.inl (Cursor.peek_none hleft)⟩
  | some found =>
    obtain ⟨one, left⟩ := found
    cases hright : walk.right.peek with
    | none => exact Or.inl ⟨by cases one <;> rfl, Or.inr (Cursor.peek_none hright)⟩
    | some found =>
      obtain ⟨two, right⟩ := found
      obtain ⟨hone, honeSame, honeLe⟩ := Cursor.peek_some hleft
      obtain ⟨htwo, htwoSame, htwoLe⟩ := Cursor.peek_some hright
      have hsize : (⟨left, right⟩ : Aligned I S G).size ≤ walk.size := Nat.add_le_add honeLe htwoLe
      have hadvance : 0 < one.level ∨ 0 < two.level →
          ∃ next, advance one two left right = some (some (none, next)) ∧
            Steps shared walk next := by
        intro hnode
        obtain ⟨next, hnext, hcontents, hlt⟩ := advance_steps shared hone htwo hnode
        refine ⟨next, hnext, ?_, lt_of_lt_of_le hlt hsize⟩
        rw [← honeSame, ← htwoSame]
        exact hcontents
      cases one with
      | node one =>
        cases two with
        | node two =>
          simp only
          split
          · next hshared =>
            obtain ⟨pastLeft, hpastLeft, hleftContents, hleftLt⟩ := Cursor.skip_node hone
            obtain ⟨pastRight, hpastRight, hrightContents, hrightLt⟩ := Cursor.skip_node htwo
            rw [hpastLeft, hpastRight]
            refine Or.inr (Or.inr ⟨⟨pastLeft, pastRight⟩, rfl, Or.inr ⟨one, two, hshared, ?_, ?_⟩, ?_⟩)
            · rw [← honeSame, hleftContents]
            · rw [← htwoSame, hrightContents]
            · simp only [Aligned.size] at hsize ⊢
              omega
          · exact Or.inr (Or.inr (hadvance (Or.inl (Nat.succ_pos _))))
        | item two => exact Or.inr (Or.inr (hadvance (Or.inl (Nat.succ_pos _))))
      | item one =>
        cases two with
        | node two => exact Or.inr (Or.inr (hadvance (Or.inr (Nat.succ_pos _))))
        | item two =>
          obtain ⟨pastLeft, hpastLeft, hleftContents, hleftLt⟩ := Cursor.skip_item hone
          obtain ⟨pastRight, hpastRight, hrightContents, hrightLt⟩ := Cursor.skip_item htwo
          simp only [hpastLeft, hpastRight]
          refine Or.inr (Or.inl ⟨one, two, ⟨pastLeft, pastRight⟩, rfl, ?_, ?_, ?_⟩)
          · rw [← honeSame, hleftContents]
          · rw [← htwoSame, hrightContents]
          · simp only [Aligned.size] at hsize ⊢
            omega

theorem turn_size {shared : Node I S G → Node I S G → Bool} {walk next : Aligned I S G}
    {pair : Option (I × I)} (h : turn shared walk = some (some (pair, next))) :
    next.size < walk.size := by
  rcases turn_cases shared walk with ⟨hend, _⟩ | ⟨l, r, found, hpair, _, _, hlt⟩ | ⟨found, hstep, hsteps⟩
  · rw [hend] at h
    cases h
  · rw [hpair] at h
    cases h
    exact hlt
  · rw [hstep] at h
    cases h
    exact hsteps.size

end Aligned

/-- The loop of `cmp_by`: the first two items at one position that differ. -/
def cmpLoop (shared : Nat → Node I S G → Node I S G → Bool) (compare : I → I → Ordering)
    (clock : Nat) (walk : Aligned I S G) : Option Ordering :=
  match _hturn : walk.turn (shared clock) with
  | none => none
  | some none => some .eq
  | some (some (none, next)) => cmpLoop shared compare (clock + 1) next
  | some (some (some (l, r), next)) =>
    match compare l r with
    | .eq => cmpLoop shared compare (clock + 1) next
    | unequal => some unequal
termination_by walk.size
decreasing_by all_goals exact Aligned.turn_size _hturn

namespace Chunked

def aligned (left right : Chunked I S G B) : Aligned I S G := ⟨.new left.root, .new right.root⟩

def cmpBy (shared : Nat → Node I S G → Node I S G → Bool) (compare : I → I → Ordering)
    (left right : Chunked I S G B) : Option Ordering := do
  match ← cmpLoop shared compare 0 (aligned left right) with
  | .eq => return Ord.compare left.len right.len
  | unequal => return unequal

def eqBy (shared : Nat → Node I S G → Node I S G → Bool) (equal : I → I → Bool)
    (left right : Chunked I S G B) : Option Bool :=
  if left.len = right.len then do
    let order ← cmpBy shared (fun l r => if equal l r then .eq else .lt) left right
    return order == .eq
  else some false

/-- `shares_root`. -/
def sharesRoot (shared : Node I S G → Node I S G → Bool) (left right : Chunked I S G B) : Bool :=
  match left.root, right.root with
  | none, none => true
  | some l, some r => shared l r
  | _, _ => false

/-- `PartialEq::eq`. -/
def eq [DecidableEq I] (shared : Nat → Node I S G → Node I S G → Bool)
    (left right : Chunked I S G B) : Option Bool :=
  if sharesRoot (shared 0) left right then some true
  else
    match left.root, right.root with
    | some l, some r =>
      if l.summary.count = r.summary.count ∧ l.summary.hash = r.summary.hash then
        eqBy (fun clock => shared (clock + 1)) (fun l r => decide (l = r)) left right
      else some false
    | _, _ => some false

/-- `Ord::cmp`, by the items' own order. -/
def cmp (shared : Nat → Node I S G → Node I S G → Bool) (compare : I → I → Ordering)
    (left right : Chunked I S G B) : Option Ordering :=
  match left.root, right.root with
  | some l, some r =>
    if shared 0 l r then some .eq
    else cmpBy (fun clock => shared (clock + 1)) compare left right
  | _, _ => cmpBy (fun clock => shared (clock + 1)) compare left right

/-- What `Hash::hash` writes. -/
def hashValue (tree : Chunked I S G B) : Nat :=
  match tree.root with
  | none => SequenceHash.empty.value
  | some root => root.summary.hash.value

end Chunked

end KRust.Term.Chunks
