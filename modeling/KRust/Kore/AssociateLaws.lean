import KRust.Kore.Associate

/-!
Association is a normal form: the walk that looks for an open spine, the walk that
replaces it and the expansion of the notation agree on what a chain is.
-/

set_option linter.unusedSectionVars false

namespace KRust.Kore

variable {spine : Symbol → Bool} {symbol : Symbol} {side : Associativity} {p : Pattern}

section Components

theorem componentsFrom_none {n : Nat} (h : p.binaryOf symbol = none) :
    componentsFrom symbol side p n = n + 1 := by
  rw [componentsFrom.eq_def]
  split
  · rename_i hb
    rw [h] at hb
    cases hb
  · rfl

theorem componentsFrom_some {left right : Pattern} {n : Nat}
    (h : p.binaryOf symbol = some (left, right)) :
    componentsFrom symbol side p n
      = componentsFrom symbol side (spineNext side left right).2 (n + 1) := by
  conv => lhs; rw [componentsFrom.eq_def]
  split
  · rename_i hb
    rw [h, Option.some.injEq, Prod.mk.injEq] at hb
    obtain ⟨rfl, rfl⟩ := hb
    rfl
  · rename_i hb
    rw [h] at hb
    cases hb

theorem le_componentsFrom (symbol : Symbol) (side : Associativity) (p : Pattern) (n : Nat) : n + 1 ≤ componentsFrom symbol side p n := by
  fun_induction componentsFrom symbol side p n with
  | case1 p n left right hb ih => omega
  | case2 p n hb => exact Nat.le_refl _

/-- A spine has three or more components when the argument it goes on in is such an
application too. -/
theorem three_le_components (symbol : Symbol) (side : Associativity) (left right : Pattern) :
    3 ≤ components (.application symbol [left, right]) symbol side
      ↔ ((spineNext side left right).2.binaryOf symbol).isSome := by
  have hroot : Pattern.binaryOf symbol (.application symbol [left, right]) = some (left, right) :=
    Pattern.binaryOf_eq_some.mpr rfl
  rw [components, componentsFrom_some hroot]
  cases hnext : (spineNext side left right).2.binaryOf symbol with
  | none => simp [componentsFrom_none hnext]
  | some args =>
    obtain ⟨l, r⟩ := args
    have := le_componentsFrom symbol side (spineNext side l r).2 2
    rw [componentsFrom_some hnext]
    simp
    omega

theorem longerSpine_isSome (p : Pattern) : (longerSpine spine p).isSome = spineOpen spine p := by
  cases p
  case application symbol arguments =>
    match arguments with
    | [] | [_] | _ :: _ :: _ :: _ => simp [longerSpine, spineOpen]
    | [left, right] =>
      have hright := three_le_components symbol .right left right
      have hleft := three_le_components symbol .left left right
      simp only [spineNext] at hright hleft
      cases hs : spine symbol with
      | false => simp [longerSpine, spineOpen, hs]
      | true =>
        rw [Bool.eq_iff_iff]
        simp only [longerSpine, spineOpen, hs, List.length_cons, List.length_nil, ne_eq,
          not_true_eq_false, Bool.true_eq_false, or_self, if_false, Bool.true_and, Bool.or_eq_true,
          ← hright, ← hleft]
        split
        · simp only [Option.isSome_none, Bool.false_eq_true, false_iff]
          omega
        · split <;> simp only [Option.isSome_some, true_iff] <;> omega
  all_goals rfl

theorem longerSpine_eq_none : longerSpine spine p = none ↔ spineOpen spine p = false := by
  rw [← longerSpine_isSome]
  cases longerSpine spine p <;> simp

theorem longerSpine_application (h : longerSpine spine p = some side) :
    ∃ symbol left right, p = .application symbol [left, right] := by
  have hopen : spineOpen spine p = true := by
    rw [← longerSpine_isSome, h]
    rfl
  unfold spineOpen at hopen
  split at hopen
  · exact ⟨_, _, _, rfl⟩
  · cases hopen

end Components

section Parts

/-- The components of the spine of a pattern in the order the spine is walked; a pattern
that is no application of the symbol to two arguments is its own one component. -/
def spineParts (symbol : Symbol) (side : Associativity) (p : Pattern) : List Pattern :=
  match p.binaryOf symbol with
  | some (left, right) => takeSpine symbol side [] left right
  | none => [p]

theorem takeSpine_append (before taken : List Pattern) (left right : Pattern) :
    takeSpine symbol side (before ++ taken) left right
      = before ++ takeSpine symbol side taken left right := by
  fun_induction takeSpine symbol side taken left right with
  | case1 taken left right left' right' hb ih =>
    rw [takeSpine.eq_def]
    split
    · rename_i hb'
      rw [hb, Option.some.injEq, Prod.mk.injEq] at hb'
      obtain ⟨rfl, rfl⟩ := hb'
      rw [List.append_assoc]
      exact ih
    · rename_i hb'
      rw [hb] at hb'
      cases hb'
  | case2 taken left right hb =>
    rw [takeSpine.eq_def]
    split
    · rename_i hb'
      rw [hb] at hb'
      cases hb'
    · simp

theorem spineParts_none (h : p.binaryOf symbol = none) : spineParts symbol side p = [p] := by
  rw [spineParts, h]

theorem spineParts_some {left right : Pattern} (h : p.binaryOf symbol = some (left, right)) :
    spineParts symbol side p = (spineNext side left right).1
      :: spineParts symbol side (spineNext side left right).2 := by
  rw [spineParts, h]
  show takeSpine symbol side [] left right = _
  rw [takeSpine.eq_def]
  split
  · rename_i left' right' hb
    rw [spineParts, hb]
    exact takeSpine_append [(spineNext side left right).1] [] left' right'
  · rename_i hb
    rw [spineParts_none hb]
    rfl

theorem spineParts_ne_nil (p : Pattern) : spineParts symbol side p ≠ [] := by
  cases h : p.binaryOf symbol with
  | none => simp [spineParts_none h]
  | some args =>
    obtain ⟨left, right⟩ := args
    simp [spineParts_some h]

/-- A replaced spine is the notation over the components of the replaced application. -/
theorem replaceSpine_application (side : Associativity) (symbol : Symbol) (left right : Pattern) :
    replaceSpine side (.application symbol [left, right])
      = .associativeApplication side symbol
        (if side = .left then (spineParts symbol side (.application symbol [left, right])).reverse
         else spineParts symbol side (.application symbol [left, right])) := by
  have hroot : Pattern.binaryOf symbol (.application symbol [left, right]) = some (left, right) :=
    Pattern.binaryOf_eq_some.mpr rfl
  simp only [replaceSpine, spineParts, hroot]

/-- Induction along the spine of a pattern. -/
theorem spine_induction (symbol : Symbol) (side : Associativity) {P : Pattern → Prop}
    (last : ∀ p, p.binaryOf symbol = none → P p)
    (next : ∀ left right, P (spineNext side left right).2 → P (.application symbol [left, right]))
    (p : Pattern) : P p := by
  cases h : p.binaryOf symbol with
  | none => exact last p h
  | some args =>
    rw [Pattern.binaryOf_eq_some.mp h]
    exact next args.1 args.2 (spine_induction symbol side last next _)
termination_by p
decreasing_by
  rw [Pattern.binaryOf_eq_some.mp h]
  exact sizeOf_spineNext symbol side args.1 args.2

end Parts

section Expansion

attribute [local grind =] forKastNode

theorem forKast_eq (p : Pattern) : forKast p = (p.children.mapM forKast).bind (forKastNode p) :=
  Pattern.rebuild_eq forKastNode p

theorem forKast_application (symbol : Symbol) (left right : Pattern) :
    forKast (.application symbol [left, right]) = (forKast left).bind fun l =>
      (forKast right).bind fun r => some (.application symbol [l, r]) := by
  rw [forKast_eq]
  cases hl : forKast left <;> cases hr : forKast right <;>
    simp [Pattern.children, forKastNode, Pattern.cloneNode, hl, hr]

theorem forKastNode_right_cons (symbol : Symbol) (arguments : List Pattern) (x : Pattern)
    {xs : List Pattern} (h : xs ≠ []) :
    forKastNode (.associativeApplication .right symbol arguments) (x :: xs)
      = (forKastNode (.associativeApplication .right symbol arguments) xs).map
        fun right => .application symbol [x, right] := by
  obtain ⟨ys, y, rfl⟩ := (List.eq_nil_or_concat xs).resolve_left h
  simp [forKastNode]

theorem forKastNode_left_concat (symbol : Symbol) (arguments : List Pattern) (x : Pattern)
    {xs : List Pattern} (h : xs ≠ []) :
    forKastNode (.associativeApplication .left symbol arguments) (xs ++ [x])
      = (forKastNode (.associativeApplication .left symbol arguments) xs).map
        fun left => .application symbol [left, x] := by
  obtain ⟨y, ys, rfl⟩ := List.exists_cons_of_ne_nil h
  simp [forKastNode]

theorem mapM_ne_nil {α β : Type} {f : α → Option β} {xs : List α} {ys : List β}
    (h : xs.mapM f = some ys) (hne : xs ≠ []) : ys ≠ [] := by
  rintro rfl
  obtain ⟨x, xs, rfl⟩ := List.exists_cons_of_ne_nil hne
  rw [List.mapM_cons] at h
  cases hx : f x <;> cases hxs : xs.mapM f <;> simp [hx, hxs] at h

/-- Expanding the components of a right spine gives back the expanded pattern. -/
theorem expand_right_spine (symbol : Symbol) (arguments : List Pattern) (p : Pattern) :
    ((spineParts symbol .right p).mapM forKast).bind
      (forKastNode (.associativeApplication .right symbol arguments)) = forKast p := by
  induction p using spine_induction symbol .right with
  | last p h =>
    rw [spineParts_none h]
    cases hp : forKast p <;> simp [hp, forKastNode]
  | next left right ih =>
    rw [spineParts_some (Pattern.binaryOf_eq_some.mpr rfl), forKast_application]
    simp only [spineNext] at ih ⊢
    rw [← ih, List.mapM_cons]
    cases hl : forKast left with
    | none => rfl
    | some l =>
      cases hparts : (spineParts symbol .right right).mapM forKast with
      | none => rfl
      | some parts =>
        have hne := mapM_ne_nil hparts (spineParts_ne_nil right)
        have hcons := forKastNode_right_cons symbol arguments l hne
        cases hfold : forKastNode (.associativeApplication .right symbol arguments) parts with
        | none => simp [hcons, hfold]
        | some r => simp [hcons, hfold]

/-- Expanding the components of a left spine, innermost first, gives back the expanded
pattern. -/
theorem expand_left_spine (symbol : Symbol) (arguments : List Pattern) (p : Pattern) :
    ((spineParts symbol .left p).reverse.mapM forKast).bind
      (forKastNode (.associativeApplication .left symbol arguments)) = forKast p := by
  induction p using spine_induction symbol .left with
  | last p h =>
    rw [spineParts_none h]
    cases hp : forKast p <;> simp [hp, forKastNode]
  | next left right ih =>
    rw [spineParts_some (Pattern.binaryOf_eq_some.mpr rfl), forKast_application]
    simp only [spineNext] at ih ⊢
    rw [← ih, List.reverse_cons, List.mapM_append]
    cases hparts : (spineParts symbol .left left).reverse.mapM forKast with
    | none => rfl
    | some parts =>
      have hne := mapM_ne_nil hparts (by simp [spineParts_ne_nil])
      cases hr : forKast right with
      | none =>
        cases forKastNode (.associativeApplication .left symbol arguments) parts <;> simp [hr]
      | some r =>
        have hconcat := forKastNode_left_concat symbol arguments r hne
        cases hfold : forKastNode (.associativeApplication .left symbol arguments) parts with
        | none => simp [hr, hconcat, hfold]
        | some l => simp [hr, hconcat, hfold]

theorem forKast_replaceSpine (symbol : Symbol) (left right : Pattern) :
    forKast (replaceSpine side (.application symbol [left, right]))
      = forKast (.application symbol [left, right]) := by
  rw [replaceSpine_application, forKast_eq]
  cases side with
  | left => exact expand_left_spine symbol _ _
  | right => exact expand_right_spine symbol _ _

theorem forKast_associateNode (p : Pattern) :
    forKast (associateNode spine p) = forKast p := by
  unfold associateNode
  split
  · rename_i side h
    obtain ⟨symbol, left, right, rfl⟩ := longerSpine_application h
    exact forKast_replaceSpine symbol left right
  · rfl

/-- The expansion of a node reads its label and its children alone. -/
theorem forKastNode_setChildren {cs : List Pattern} (h : cs.length = p.children.length)
    (arguments : List Pattern) :
    forKastNode (p.setChildren cs) arguments = forKastNode p arguments := by
  cases p
  case not | next | «exists» | «forall» | mu | nu | ceil | floor =>
    obtain ⟨c, rfl⟩ := List.length_eq_one_iff.mp h
    cases arguments <;> rfl
  case implies | iff | rewrites | equals | «in» =>
    obtain ⟨c, d, rfl⟩ := List.length_eq_two.mp h
    rcases arguments with _ | ⟨a, _ | ⟨b, as⟩⟩ <;> rfl
  case associativeApplication side symbol args => cases side <;> rfl
  all_goals rfl

end Expansion

section NormalForm

/-- No subpattern has an open spine. -/
inductive Associated (spine : Symbol → Bool) : Pattern → Prop where
  | node {p : Pattern} (closed : spineOpen spine p = false)
      (children : ∀ c ∈ p.children, Associated spine c) : Associated spine p

theorem isAssociatedFrom_iff (work : List Pattern) :
    isAssociatedFrom spine work = true ↔ ∀ p ∈ work, Associated spine p := by
  fun_induction isAssociatedFrom spine work with
  | case1 => simp
  | case2 node work hopen =>
    simp only [Bool.false_eq_true, List.mem_cons, forall_eq_or_imp, false_iff, not_and]
    rintro ⟨closed, -⟩
    rw [hopen] at closed
    cases closed
  | case3 node work hclosed ih =>
    rw [ih]
    simp only [List.mem_append, List.mem_reverse, List.mem_cons, forall_eq_or_imp]
    constructor
    · intro h
      exact ⟨.node (by simpa using hclosed) fun c hc => h c (.inl hc), fun p hp => h p (.inr hp)⟩
    · rintro ⟨⟨-, children⟩, hwork⟩ p (hp | hp)
      · exact children p hp
      · exact hwork p hp

theorem isAssociated_iff : isAssociated spine p = true ↔ Associated spine p := by
  simp [isAssociated, isAssociatedFrom_iff]

theorem associate_children (spine : Symbol → Bool) (p : Pattern) :
    (associate spine p).children = (associateNode spine p).children.map (associate spine) := by
  rw [associate_eq, Pattern.children_setChildren (List.length_map _)]

/-- An application comes from an application of the same symbol to as many arguments. -/
theorem associate_eq_application {arguments : List Pattern}
    (h : associate spine p = .application symbol arguments) :
    ∃ before : List Pattern, p = .application symbol before ∧ before.length = arguments.length := by
  have hnode : ∃ before, associateNode spine p = .application symbol before ∧
      before.map (associate spine) = arguments := by
    rw [associate_eq] at h
    generalize associateNode spine p = q at h
    cases q <;> simp only [Pattern.setChildren, Pattern.cloneNode, Pattern.children, List.map_cons,
      List.map_nil, Option.getD_some, reduceCtorEq, Pattern.application.injEq] at h
    obtain ⟨rfl, rfl⟩ := h
    exact ⟨_, rfl, rfl⟩
  obtain ⟨before, hbefore, rfl⟩ := hnode
  refine ⟨before, ?_, (List.length_map _).symm⟩
  unfold associateNode at hbefore
  split at hbefore
  · rename_i side hside
    obtain ⟨s, left, right, rfl⟩ := longerSpine_application hside
    rw [replaceSpine_application] at hbefore
    cases hbefore
  · exact hbefore

theorem binaryOf_associate (h : p.binaryOf symbol = none) :
    (associate spine p).binaryOf symbol = none := by
  cases hb : (associate spine p).binaryOf symbol with
  | none => rfl
  | some args =>
    obtain ⟨l, r⟩ := args
    obtain ⟨before, rfl, hlen⟩ := associate_eq_application (Pattern.binaryOf_eq_some.mp hb)
    obtain ⟨left, right, rfl⟩ := List.length_eq_two.mp hlen
    rw [Pattern.binaryOf_eq_some.mpr rfl] at h
    cases h

theorem associateNode_closed (h : spineOpen spine p = false) : associateNode spine p = p := by
  rw [associateNode, longerSpine_eq_none.mpr h]

theorem associateNode_open (h : spineOpen spine p = true) :
    ∃ side symbol arguments, associateNode spine p
      = .associativeApplication side symbol arguments := by
  cases hside : longerSpine spine p with
  | none =>
    rw [longerSpine_eq_none.mp hside] at h
    cases h
  | some side =>
    obtain ⟨symbol, left, right, rfl⟩ := longerSpine_application hside
    rw [associateNode, hside]
    exact ⟨side, symbol, _, replaceSpine_application side symbol left right⟩

theorem spineOpen_associate (p : Pattern) : spineOpen spine (associate spine p) = false := by
  cases hopen : spineOpen spine p with
  | true =>
    obtain ⟨side, symbol, arguments, hnode⟩ := associateNode_open hopen
    rw [associate_eq, hnode]
    rfl
  | false =>
    have hchildren := associate_children spine p
    rw [associateNode_closed hopen] at hchildren
    cases hassoc : associate spine p
    case application symbol arguments =>
      obtain ⟨before, rfl, hlen⟩ := associate_eq_application hassoc
      rw [hassoc] at hchildren
      simp only [Pattern.children] at hchildren
      subst hchildren
      rcases before with _ | ⟨left, _ | ⟨right, _ | ⟨_, _⟩⟩⟩
      case cons.cons.nil =>
        -- a child that is no application of the symbol does not become one
        simp only [spineOpen, Bool.and_eq_false_iff, Bool.or_eq_false_iff,
          Option.isSome_eq_false_iff, Option.isNone_iff_eq_none, List.map_cons, List.map_nil]
          at hopen ⊢
        rcases hopen with hs | ⟨hl, hr⟩
        · exact .inl hs
        · exact .inr ⟨binaryOf_associate hl, binaryOf_associate hr⟩
      all_goals rfl
    all_goals rfl

theorem associated_associate (p : Pattern) : Associated spine (associate spine p) := by
  apply Associated.node (spineOpen_associate p)
  intro c hc
  rw [associate_children, List.mem_map] at hc
  obtain ⟨d, hd, rfl⟩ := hc
  exact associated_associate d
termination_by p
decreasing_by exact sizeOf_associateNode hd

theorem associate_of_associated (h : Associated spine p) : associate spine p = p := by
  induction h with
  | @node p closed children ih =>
    rw [associate_eq, associateNode_closed closed, List.map_congr_left ih, List.map_id',
      Pattern.setChildren_children]

theorem associated_iff : Associated spine p ↔ associate spine p = p := by
  constructor
  · exact associate_of_associated
  · intro h
    rw [← h]
    exact associated_associate p

theorem mapM_congr_mem {α β : Type} {f g : α → Option β} {xs : List α}
    (h : ∀ x ∈ xs, f x = g x) : xs.mapM f = xs.mapM g := by
  induction xs with
  | nil => rfl
  | cons x xs ih =>
    rw [List.forall_mem_cons] at h
    rw [List.mapM_cons, List.mapM_cons, h.1, ih h.2]

theorem forKast_associate (p : Pattern) : forKast (associate spine p) = forKast p := by
  have hmap : ((associateNode spine p).children.map (associate spine)).mapM forKast
      = (associateNode spine p).children.mapM forKast := by
    rw [List.mapM_map]
    exact mapM_congr_mem fun c hc => forKast_associate c
  rw [forKast_eq, associate_children, hmap, associate_eq,
    funext (forKastNode_setChildren (List.length_map _)), ← forKast_eq, forKast_associateNode]
termination_by p
decreasing_by exact sizeOf_associateNode hc

end NormalForm

section Chains

/-- The arguments of the associative chain of a symbol at a pattern from left to right,
through nested applications to two arguments and both notations in any mixture. -/
def chain (symbol : Symbol) (p : Pattern) : List Pattern :=
  match p with
  | .application applied [left, right] =>
    if applied = symbol then chain symbol left ++ chain symbol right
    else [.application applied [left, right]]
  | .associativeApplication side applied arguments =>
    if applied = symbol then arguments.flatMap (chain symbol)
    else [.associativeApplication side applied arguments]
  | p => [p]

theorem chain_application (left right : Pattern) :
    chain symbol (.application symbol [left, right]) = chain symbol left ++ chain symbol right := by
  rw [chain, if_pos rfl]

theorem chain_associative (arguments : List Pattern) :
    chain symbol (.associativeApplication side symbol arguments)
      = arguments.flatMap (chain symbol) := by
  rw [chain, if_pos rfl]

theorem chain_right_parts (p : Pattern) :
    (spineParts symbol .right p).flatMap (chain symbol) = chain symbol p := by
  induction p using spine_induction symbol .right with
  | last p h => simp [spineParts_none h]
  | next left right ih =>
    rw [spineParts_some (Pattern.binaryOf_eq_some.mpr rfl), List.flatMap_cons, chain_application]
    exact congrArg (chain symbol left ++ ·) ih

theorem chain_left_parts (p : Pattern) :
    (spineParts symbol .left p).reverse.flatMap (chain symbol) = chain symbol p := by
  induction p using spine_induction symbol .left with
  | last p h => simp [spineParts_none h]
  | next left right ih =>
    rw [spineParts_some (Pattern.binaryOf_eq_some.mpr rfl), List.reverse_cons,
      List.flatMap_append, chain_application]
    simp only [spineNext] at ih ⊢
    rw [ih, List.flatMap_singleton]

theorem chain_replaceSpine (left right : Pattern) :
    chain symbol (replaceSpine side (.application symbol [left, right]))
      = chain symbol (.application symbol [left, right]) := by
  rw [replaceSpine_application, chain_associative]
  cases side with
  | left => exact chain_left_parts _
  | right => exact chain_right_parts _

/-- A pattern that carries no chain of the symbol is its own one argument. -/
theorem chain_other (h : p.binaryOf symbol = none)
    (hassoc : ∀ side arguments, p ≠ .associativeApplication side symbol arguments) :
    chain symbol p = [p] := by
  unfold chain
  split
  · rename_i applied left right
    split
    · rename_i heq
      subst heq
      rw [Pattern.binaryOf_eq_some.mpr rfl] at h
      cases h
    · rfl
  · rename_i side applied arguments
    split
    · rename_i heq
      subst heq
      exact absurd rfl (hassoc side arguments)
    · rfl
  · rfl

theorem associate_of_associative {applied : Symbol} {arguments : List Pattern}
    (h : associateNode spine p = .associativeApplication side applied arguments) :
    associate spine p = .associativeApplication side applied (arguments.map (associate spine)) := by
  rw [associate_eq, h]
  rfl

theorem chain_associateNode (h : associateNode spine p = p ∨
    ∃ left right, p = .application symbol [left, right]) :
    chain symbol (associateNode spine p) = chain symbol p := by
  rcases h with h | ⟨left, right, rfl⟩
  · rw [h]
  · unfold associateNode
    split
    · exact chain_replaceSpine left right
    · rfl

/-- A node that becomes a notation was one, or an application with an open spine. -/
theorem associateNode_associative {applied : Symbol} {arguments : List Pattern}
    (h : associateNode spine p = .associativeApplication side applied arguments) :
    associateNode spine p = p ∨ ∃ left right, p = .application applied [left, right] := by
  cases hside : longerSpine spine p with
  | none =>
    left
    rw [associateNode, hside]
  | some side' =>
    right
    obtain ⟨s, left, right, rfl⟩ := longerSpine_application hside
    rw [associateNode, hside] at h
    have hreplace := replaceSpine_application side' s left right
    rw [show replaceSpine side' (.application s [left, right]) = _ from h] at hreplace
    rw [(Pattern.associativeApplication.inj hreplace).2.1]
    exact ⟨left, right, rfl⟩

/-- Association keeps the arguments of every chain in their order: each is associated
in its place. -/
theorem chain_associate (symbol : Symbol) (p : Pattern) :
    chain symbol (associate spine p) = (chain symbol p).map (associate spine) := by
  by_cases hnotation : ∃ side applied arguments,
      associateNode spine p = .associativeApplication side applied arguments
  · obtain ⟨side, applied, arguments, hnode⟩ := hnotation
    have horigin := associateNode_associative hnode
    by_cases hs : applied = symbol
    · subst hs
      rw [associate_of_associative hnode, chain_associative, List.flatMap_map,
        ← chain_associateNode horigin, hnode, chain_associative, List.map_flatMap]
      apply List.flatMap_congr
      intro c hc
      exact chain_associate applied c
    · have hchain : chain symbol p = [p] := by
        rcases horigin with h | ⟨left, right, rfl⟩
        · rw [← h, hnode, chain, if_neg hs]
        · rw [chain, if_neg hs]
      rw [hchain, associate_of_associative hnode, chain, if_neg hs, List.map_singleton,
        associate_of_associative hnode]
  · have hclosed : spineOpen spine p = false := by
      cases hopen : spineOpen spine p with
      | false => rfl
      | true => exact absurd (associateNode_open hopen) hnotation
    have hnode := associateNode_closed hclosed
    rw [hnode] at hnotation
    cases hb : p.binaryOf symbol with
    | some args =>
      obtain ⟨left, right⟩ := args
      rw [Pattern.binaryOf_eq_some] at hb
      rw [associate_eq, hnode, hb]
      show chain symbol (.application symbol [associate spine left, associate spine right]) = _
      rw [chain_application, chain_application, List.map_append, chain_associate symbol left,
        chain_associate symbol right]
    | none =>
      have hassoc : ∀ side arguments, p ≠ .associativeApplication side symbol arguments :=
        fun side arguments h => hnotation ⟨side, symbol, arguments, h⟩
      rw [chain_other hb hassoc]
      apply chain_other (binaryOf_associate hb)
      intro side arguments h
      apply hnotation
      rw [associate_eq, hnode] at h
      cases p <;> simp [Pattern.setChildren, Pattern.cloneNode, Pattern.children] at h ⊢
termination_by p
decreasing_by
  · exact sizeOf_associateNode (by rw [hnode]; exact hc)
  all_goals
    rw [Pattern.binaryOf_eq_some] at hb
    rw [hb]
    simp_wf
    omega

/-- Normalising associative chains: association is idempotent and is the identity exactly
where `isAssociated` accepts, its results are accepted, and the expansion to KAST cannot
tell a pattern from its association; so the arguments of every chain keep their
left-to-right order. -/
theorem associate_normal_form (spine : Symbol → Bool) (p : Pattern) :
    associate spine (associate spine p) = associate spine p ∧
    (isAssociated spine p = true ↔ associate spine p = p) ∧
    isAssociated spine (associate spine p) = true ∧
    forKast (associate spine p) = forKast p ∧
    ∀ symbol, chain symbol (associate spine p) = (chain symbol p).map (associate spine) := by
  refine ⟨associate_of_associated (associated_associate p), ?_, ?_, forKast_associate p, ?_⟩
  · exact isAssociated_iff.trans associated_iff
  · exact isAssociated_iff.mpr (associated_associate p)
  · exact fun symbol => chain_associate symbol p

end Chains

end KRust.Kore
