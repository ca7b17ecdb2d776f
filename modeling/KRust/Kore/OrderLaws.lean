import KRust.Kore.Order

/-!
The comparisons of sorts and of patterns are the orders that `derive(Ord)` would give, whatever the
depth at which the recursion hands over to the work list, and these orders are linear.
-/

set_option linter.unusedSectionVars false

namespace KRust.Kore

open KRust.Lib KRust.Lib.Spelling

namespace KoreSort

section Comparison

theorem derivedCmpAll_eq (sorts sorts' : List KoreSort) :
    derivedCmp.derivedCmpAll sorts sorts' = List.compareLex derivedCmp sorts sorts' := by
  induction sorts generalizing sorts' with
  | nil => cases sorts' <;> rfl
  | cons s sorts ih =>
    cases sorts' with
    | nil => rfl
    | cons s' sorts' => rw [derivedCmp.derivedCmpAll, ih, List.compareLex_cons_cons]

theorem derived : trees.Derived derivedCmp := by
  intro s s'
  cases s with
  | var name =>
    cases s' with
    | var name' => exact Ordering.then_eq.symm
    | application name' arguments' => rfl
  | application name arguments =>
    cases s' with
    | var name' => rfl
    | application name' arguments' =>
      rw [derivedCmp, derivedCmpAll_eq]
      rfl

theorem cmpIteratively_eq (s s' : KoreSort) : s.cmpIteratively s' = s.derivedCmp s' :=
  derived.cmpIteratively_eq s s'

/-- Where the recursion hands over makes no difference. -/
theorem cmpFromDepth_eq (limit : Nat) (s s' : KoreSort) (depth : Nat) :
    cmpFromDepth limit s s' depth = s.derivedCmp s' := by
  induction s using arguments_induction generalizing s' depth with
  | node s ih =>
    rw [cmpFromDepth.eq_def]
    split
    · exact cmpIteratively_eq s s'
    · cases s with
      | var name => cases s' <;> rfl
      | application name arguments =>
        cases s' with
        | var name' => rfl
        | application name' arguments' =>
          have hpairs : (arguments.zip arguments').foldr
              (fun pair rest => (cmpFromDepth limit pair.1 pair.2 (depth + 1)).then rest)
              (compare arguments.length arguments'.length) =
                derivedCmp.derivedCmpAll arguments arguments' := by
            rw [derivedCmpAll_eq, ← TreeOrder.foldr_then_length]
            refine List.foldr_ext _ _ _ fun pair hpair rest => ?_
            rw [ih pair.1 (List.of_mem_zip hpair).1]
          rw [derivedCmp, ← hpairs]

theorem cmp_eq : cmp = derivedCmp := by
  funext s s'
  exact cmpFromDepth_eq recursionLimit s s' 0

end Comparison

section Order

/-- A sort's own tokens, before those of its arguments. -/
def spellHead : KoreSort → List Lib.Token
  | .var name => [.mark 0, .text name]
  | .application name _ => [.mark 1, .text name]

theorem spelled : trees.Spelled spellHead where
  head_eq s s' := by
    cases s <;> cases s'
    case var.var name name' | application.application name _ name' _ =>
      exact (compareBy_text name name').symm
    all_goals rfl
  read {s s' r r'} h := by
    cases s <;> cases s' <;>
      simp only [spellHead, List.cons_append, List.nil_append, List.cons.injEq] at h ⊢ <;> tauto
  eq_of_children {s s'} h hchildren := by
    cases s <;> cases s' <;> simp only [spellHead, List.cons.injEq, and_true] at h
    case var.var => rw [text_injective h.2]
    case application.application =>
      rw [text_injective h.2]
      exact congrArg _ hchildren
    all_goals exact absurd (mark_injective h.1) (by decide)

def spell : KoreSort → List Lib.Token := trees.spelling spellHead

theorem unique_spell (s : KoreSort) : Unique spell s := spelled.unique s

theorem derivedCmp_eq (s s' : KoreSort) : s.derivedCmp s' = compareBy spell s s' :=
  congrFun (congrFun (derived.unique spelled.derived) s) s'

theorem linear : Std.TransCmp derivedCmp ∧ Std.LawfulEqCmp derivedCmp := derived.linear spelled

theorem derivedCmp_eq_iff (s s' : KoreSort) : s.derivedCmp s' = .eq ↔ s = s' := by
  have := linear.1
  have := linear.2
  exact Std.LawfulEqCmp.compare_eq_iff_eq

/-- Equality is structural, wherever the recursion hands over. -/
theorem eqFromDepth_eq (limit : Nat) (s s' : KoreSort) (depth : Nat) :
    eqFromDepth limit s s' depth = decide (s = s') := by
  induction s using arguments_induction generalizing s' depth with
  | node s ih =>
    rw [eqFromDepth.eq_def]
    cases s with
    | var name => cases s' <;> simp
    | application name arguments =>
      cases s' with
      | var name' => simp
      | application name' arguments' =>
        simp only []
        split
        · rename_i hdiffer
          refine (decide_eq_false fun heq => ?_).symm
          cases heq
          simp at hdiffer
        · rename_i hsame
          obtain ⟨hname, hlength⟩ := not_or.mp hsame
          split
          · rw [cmpIteratively_eq, Bool.eq_iff_iff, decide_eq_true_iff, ← derivedCmp_eq_iff,
              Ordering.isEq_iff_eq_eq]
          · have hpairs : (arguments.zip arguments').all
                (fun pair => eqFromDepth limit pair.1 pair.2 (depth + 1)) = true ↔
                  arguments = arguments' := by
              rw [List.all_eq_true, ← List.forall₂_eq_eq_eq, List.forall₂_iff_zip]
              constructor
              · intro h
                refine ⟨not_not.mp hlength, fun {t t'} hpair => ?_⟩
                have heq := h (t, t') hpair
                rw [ih t (List.of_mem_zip hpair).1] at heq
                exact of_decide_eq_true heq
              · rintro ⟨-, h⟩ ⟨t, t'⟩ hpair
                rw [ih t (List.of_mem_zip hpair).1]
                exact decide_eq_true (h hpair)
            rw [Bool.eq_iff_iff, hpairs, decide_eq_true_iff, application.injEq]
            exact (and_iff_right (not_not.mp hname)).symm

end Order

end KoreSort

namespace Pattern

section Comparison

theorem derivedCmpAll_eq (patterns patterns' : List Pattern) :
    derivedCmp.derivedCmpAll patterns patterns' =
      List.compareLex derivedCmp patterns patterns' := by
  induction patterns generalizing patterns' with
  | nil => cases patterns' <;> rfl
  | cons p patterns ih =>
    cases patterns' with
    | nil => rfl
    | cons p' patterns' => rw [derivedCmp.derivedCmpAll, ih, List.compareLex_cons_cons]

theorem compareLex_one {I : Type} (cmp : I → I → Ordering) (x x' : I) :
    List.compareLex cmp [x] [x'] = cmp x x' := by
  rw [List.compareLex_cons_cons]
  exact Ordering.then_eq

theorem compareLex_two {I : Type} (cmp : I → I → Ordering) (x y x' y' : I) :
    List.compareLex cmp [x, y] [x', y'] = (cmp x x').then (cmp y y') := by
  rw [List.compareLex_cons_cons, compareLex_one]

theorem derived : (trees KoreSort.derivedCmp).Derived derivedCmp := by
  intro p q
  change p.derivedCmp q = ((compare p.discriminant q.discriminant).then
    (scalars KoreSort.derivedCmp p q)).then (List.compareLex derivedCmp p.children q.children)
  cases p <;> cases q
  case string.string | var.var | top.top | bottom.bottom | domainValue.domainValue =>
    exact Ordering.then_eq.symm
  case application.application | and.and | or.or =>
    rw [derivedCmp, derivedCmpAll_eq]
    rfl
  case associativeApplication.associativeApplication =>
    rw [derivedCmp, derivedCmpAll_eq, ← Ordering.then_assoc]
    rfl
  case not.not | next.next | mu.mu | nu.nu =>
    rw [children, children, compareLex_one]
    rfl
  case implies.implies | iff.iff | rewrites.rewrites =>
    rw [children, children, compareLex_two]
    rfl
  case exists.exists | forall.forall | ceil.ceil | floor.floor =>
    rw [children, children, compareLex_one, derivedCmp, ← Ordering.then_assoc]
    rfl
  case equals.equals | in.in =>
    rw [children, children, compareLex_two, derivedCmp, ← Ordering.then_assoc]
    rfl
  -- Nodes of different variants are decided by their ranks.
  all_goals rfl

end Comparison

section Order

def spellSymbol : Symbol → List Lib.Token :=
  via (fun symbol => (symbol.name, symbol.sortParameters)) (pair text (items KoreSort.spell))

theorem unique_spellSymbol (symbol : Symbol) : Unique spellSymbol symbol :=
  .via (fun ⟨_, _⟩ ⟨_, _⟩ h => by simp_all)
    (.pair (unique_text _) (.items fun _ _ => KoreSort.unique_spell _))

def spellVariable : Variable → List Lib.Token :=
  via (fun v => (v.kind.rank, v.name, v.sort)) (pair number (pair text KoreSort.spell))

theorem unique_spellVariable (v : Variable) : Unique spellVariable v :=
  .via (by
      rintro ⟨_ | _, _, _⟩ ⟨_ | _, _, _⟩ h <;> simp_all [VariableKind.rank])
    (.pair (unique_number _) (.pair (unique_text _) (KoreSort.unique_spell _)))

def spellString : KoreString → List Lib.Token := items (via UInt8.toNat number)

theorem unique_spellString (value : KoreString) : Unique spellString value :=
  .items fun _ _ => .via (fun _ _ h => UInt8.toNat_inj.mp h) (unique_number _)

def spellChain : Associativity × Symbol → List Lib.Token :=
  pair (via Associativity.rank number) spellSymbol

theorem unique_spellChain (chain : Associativity × Symbol) : Unique spellChain chain :=
  .pair (.via (by rintro (_ | _) (_ | _) h <;> first | rfl | cases h) (unique_number _))
    (unique_spellSymbol _)

theorem symbolCmp_eq (symbol symbol' : Symbol) :
    symbol.cmp KoreSort.derivedCmp symbol' = compareBy spellSymbol symbol symbol' := by
  have hsorts : List.compareLex KoreSort.derivedCmp symbol.sortParameters symbol'.sortParameters =
      compareBy (items KoreSort.spell) symbol.sortParameters symbol'.sortParameters := by
    have hcmp : KoreSort.derivedCmp = compareBy KoreSort.spell := by
      funext s s'
      exact KoreSort.derivedCmp_eq s s'
    rw [compareBy_items fun s _ => KoreSort.unique_spell s, hcmp]
  rw [Symbol.cmp, hsorts, ← compareBy_text, ← compareBy_pair (unique_text _)]
  rfl

theorem variableCmp_eq (v v' : Variable) :
    v.cmp KoreSort.derivedCmp v' = compareBy spellVariable v v' := by
  rw [Variable.cmp, KoreSort.derivedCmp_eq, ← compareBy_text, ← compareBy_number,
    ← compareBy_pair (unique_text _), ← compareBy_pair (unique_number _)]
  rfl

theorem stringCmp_eq (value value' : KoreString) :
    KoreString.cmp value value' = compareBy spellString value value' := by
  have hbyte : (fun b b' : UInt8 => compare b.toNat b'.toNat) =
      compareBy (via UInt8.toNat number) := by
    funext b b'
    exact (compareBy_number b.toNat b'.toNat).symm
  rw [KoreString.cmp, hbyte, spellString, compareBy_items]
  exact fun b _ => .via (fun _ _ h => UInt8.toNat_inj.mp h) (unique_number _)

theorem chainCmp_eq (side side' : Associativity) (symbol symbol' : Symbol) :
    (compare side.rank side'.rank).then (symbol.cmp KoreSort.derivedCmp symbol') =
      compareBy spellChain (side, symbol) (side', symbol') := by
  rw [symbolCmp_eq, ← compareBy_number, spellChain, compareBy_pair]
  · rfl
  · exact .via (by rintro (_ | _) (_ | _) h <;> first | rfl | cases h) (unique_number _)

/-- The fields of a node other than its children. -/
inductive Scalars where
  | string (value : KoreString)
  | var (v : Variable)
  | symbol (head : Symbol)
  | sort (s : KoreSort)
  | binder (s : KoreSort) (v : Variable)
  | sorts (operand result : KoreSort)
  | literal (s : KoreSort) (value : KoreString)
  | chain (side : Associativity) (head : Symbol)

namespace Scalars

def rank : Scalars → ℕ
  | .string _ => 0
  | .var _ => 1
  | .symbol _ => 2
  | .sort _ => 3
  | .binder _ _ => 4
  | .sorts _ _ => 5
  | .literal _ _ => 6
  | .chain _ _ => 7

def spellFields : Scalars → List Lib.Token
  | .string value => spellString value
  | .var v => spellVariable v
  | .symbol head => spellSymbol head
  | .sort s => s.spell
  | .binder s v => pair KoreSort.spell spellVariable (s, v)
  | .sorts operand result => pair KoreSort.spell KoreSort.spell (operand, result)
  | .literal s value => pair KoreSort.spell spellString (s, value)
  | .chain side head => spellChain (side, head)

def spell (fields : Scalars) : List Lib.Token := .mark fields.rank :: fields.spellFields

theorem unique_spell (fields : Scalars) : Unique spell fields := by
  constructor
  intro fields' r s h
  have hsame : fields.rank = fields'.rank := mark_injective (List.cons.inj h).1
  have hfields : fields.spellFields ++ r = fields'.spellFields ++ s := (List.cons.inj h).2
  cases fields <;> cases fields' <;> cases hsame
  case string.string =>
    obtain ⟨rfl, hrest⟩ := (unique_spellString _).read hfields
    exact ⟨rfl, hrest⟩
  case var.var =>
    obtain ⟨rfl, hrest⟩ := (unique_spellVariable _).read hfields
    exact ⟨rfl, hrest⟩
  case symbol.symbol =>
    obtain ⟨rfl, hrest⟩ := (unique_spellSymbol _).read hfields
    exact ⟨rfl, hrest⟩
  case sort.sort =>
    obtain ⟨rfl, hrest⟩ := (KoreSort.unique_spell _).read hfields
    exact ⟨rfl, hrest⟩
  case binder.binder =>
    obtain ⟨heq, hrest⟩ := Unique.read
      (.pair (KoreSort.unique_spell _) (unique_spellVariable _)) hfields
    cases heq
    exact ⟨rfl, hrest⟩
  case sorts.sorts =>
    obtain ⟨heq, hrest⟩ := Unique.read
      (.pair (KoreSort.unique_spell _) (KoreSort.unique_spell _)) hfields
    cases heq
    exact ⟨rfl, hrest⟩
  case literal.literal =>
    obtain ⟨heq, hrest⟩ := Unique.read
      (.pair (KoreSort.unique_spell _) (unique_spellString _)) hfields
    cases heq
    exact ⟨rfl, hrest⟩
  case chain.chain =>
    obtain ⟨heq, hrest⟩ := (unique_spellChain _).read hfields
    cases heq
    exact ⟨rfl, hrest⟩

end Scalars

def fields : Pattern → Scalars
  | .string value => .string value
  | .var v => .var v
  | .application symbol _ => .symbol symbol
  | .top sort | .bottom sort | .and sort _ | .or sort _ | .not sort _ | .next sort _
  | .implies sort _ _ | .iff sort _ _ | .rewrites sort _ _ => .sort sort
  | .exists sort v _ | .forall sort v _ => .binder sort v
  | .mu v _ | .nu v _ => .var v
  | .ceil operand result _ | .floor operand result _ | .equals operand result _ _
  | .in operand result _ _ => .sorts operand result
  | .domainValue sort value => .literal sort value
  | .associativeApplication side symbol _ => .chain side symbol

def spellHead (p : Pattern) : List Lib.Token := .mark p.discriminant :: p.fields.spell

/-- Two nodes of one variant are compared by the spellings of their fields. -/
theorem scalars_eq {p q : Pattern} (h : p.discriminant = q.discriminant) :
    scalars KoreSort.derivedCmp p q = compareBy Scalars.spell p.fields q.fields := by
  cases p <;> cases q <;> cases h
  case string.string => exact stringCmp_eq _ _
  case var.var | mu.mu | nu.nu => exact variableCmp_eq _ _
  case application.application => exact symbolCmp_eq _ _
  case exists.exists | forall.forall =>
    change (KoreSort.derivedCmp _ _).then (Variable.cmp _ _ _) = _
    rw [KoreSort.derivedCmp_eq, variableCmp_eq]
    exact (compareBy_pair (KoreSort.unique_spell _) _ _ _).symm
  case ceil.ceil | floor.floor | equals.equals | in.in =>
    change (KoreSort.derivedCmp _ _).then (KoreSort.derivedCmp _ _) = _
    rw [KoreSort.derivedCmp_eq, KoreSort.derivedCmp_eq]
    exact (compareBy_pair (KoreSort.unique_spell _) _ _ _).symm
  case domainValue.domainValue =>
    change (KoreSort.derivedCmp _ _).then (KoreString.cmp _ _) = _
    rw [KoreSort.derivedCmp_eq, stringCmp_eq]
    exact (compareBy_pair (KoreSort.unique_spell _) _ _ _).symm
  case associativeApplication.associativeApplication => exact chainCmp_eq _ _ _ _
  all_goals exact KoreSort.derivedCmp_eq _ _

theorem eq_of_fields {p q : Pattern} (h : p.discriminant = q.discriminant)
    (hfields : p.fields = q.fields) (hchildren : p.children = q.children) : p = q := by
  cases p <;> cases q <;> cases h <;> cases hfields <;> cases hchildren <;> rfl

theorem spelled : (trees KoreSort.derivedCmp).Spelled spellHead where
  head_eq p q := by
    change (compare p.discriminant q.discriminant).then (scalars KoreSort.derivedCmp p q) = _
    rw [spellHead, spellHead, compare_marks]
    by_cases h : p.discriminant = q.discriminant
    · rw [scalars_eq h]
      rfl
    · cases hcompare : compare p.discriminant q.discriminant with
      | eq => exact absurd (compare_eq_iff_eq.mp hcompare) h
      | lt => rfl
      | gt => rfl
  read {p q r s} h := by
    obtain ⟨hmark, hrest⟩ := List.cons.inj h
    obtain ⟨hfields, rfl⟩ := p.fields.unique_spell.read hrest
    refine ⟨?_, rfl⟩
    rw [spellHead, spellHead, hfields, hmark]
  eq_of_children {p q} h hchildren := by
    obtain ⟨hmark, hrest⟩ := List.cons.inj h
    exact eq_of_fields (mark_injective hmark) (Unique.injective Scalars.unique_spell hrest) hchildren

theorem linear : Std.TransCmp derivedCmp ∧ Std.LawfulEqCmp derivedCmp := derived.linear spelled

theorem cmp_eq : cmp = derivedCmp := by
  funext p q
  rw [cmp, KoreSort.cmp_eq]
  exact derived.cmpIteratively_eq p q

end Order

end Pattern

/-- Sorts and patterns are compared as `derive(Ord)` would compare them, wherever the recursion over
sorts hands over to the work list; the orders are linear, and equality is structural. -/
theorem compared_as_derived :
    (∀ (limit depth : Nat) (s s' : KoreSort),
      KoreSort.cmpFromDepth limit s s' depth = s.derivedCmp s' ∧
      KoreSort.eqFromDepth limit s s' depth = decide (s = s') ∧
      s.cmpIteratively s' = s.derivedCmp s') ∧
    KoreSort.cmp = KoreSort.derivedCmp ∧ Std.TransCmp KoreSort.cmp ∧
    (∀ s s' : KoreSort, (s.cmp s' = .eq ↔ s = s') ∧ s.eq s' = decide (s = s')) ∧
    Pattern.cmp = Pattern.derivedCmp ∧ Std.TransCmp Pattern.cmp ∧
    ∀ p q : Pattern, (p.cmp q = .eq ↔ p = q) ∧ (p.eq q = true ↔ p = q) := by
  have hlinear := KoreSort.linear.1
  have hpatterns := Pattern.linear
  have heq (p q : Pattern) : p.cmp q = .eq ↔ p = q := by
    have := hpatterns.1
    have := hpatterns.2
    rw [Pattern.cmp_eq]
    exact Std.LawfulEqCmp.compare_eq_iff_eq
  refine ⟨fun limit depth s s' => ⟨KoreSort.cmpFromDepth_eq limit s s' depth,
    KoreSort.eqFromDepth_eq limit s s' depth, KoreSort.cmpIteratively_eq s s'⟩,
    KoreSort.cmp_eq, KoreSort.cmp_eq ▸ hlinear, fun s s' => ⟨?_, ?_⟩,
    Pattern.cmp_eq, Pattern.cmp_eq ▸ hpatterns.1, fun p q => ⟨heq p q, ?_⟩⟩
  · rw [KoreSort.cmp_eq, KoreSort.derivedCmp_eq_iff]
  · exact KoreSort.eqFromDepth_eq _ s s' 0
  · rw [Pattern.eq, Ordering.isEq_iff_eq_eq, heq]

end KRust.Kore
