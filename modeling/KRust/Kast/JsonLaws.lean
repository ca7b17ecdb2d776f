import KRust.Kast.Json
import KRust.Json.TreeLaws

/-!
The KAST JSON of a term is read as the term without its annotations, as long as no sort is
named by a numeral with a leading zero, which the reader refuses.
-/

set_option linter.unusedSectionVars false

namespace KRust.Kast

/-- No name in the sort is a numeral with a leading zero. -/
inductive KSort.Canonical : KSort → Prop where
  | mk {name : String} {parameters : List KSort} :
    (∀ canonical, numeralSpelling name.toList ≠ .nonCanonical canonical) →
      (∀ s ∈ parameters, Canonical s) → Canonical (.mk name parameters)

def Label.Canonical (label : Label) : Prop := ∀ s ∈ label.parameters, s.Canonical

namespace Term

variable {μ : Type}

/-- No sort of the term is named by a numeral with a leading zero. -/
inductive CanonicalSorts : Term μ → Prop where
  | injectedLabel {label : Label} : label.Canonical → CanonicalSorts (.injectedLabel label)
  | rewrite {left right : Term μ} :
    CanonicalSorts left → CanonicalSorts right → CanonicalSorts (.rewrite left right)
  | as {pattern aliased : Term μ} :
    CanonicalSorts pattern → CanonicalSorts aliased → CanonicalSorts (.as pattern aliased)
  | var {name : String} {sort : Option KSort} :
    (∀ s ∈ sort, s.Canonical) → CanonicalSorts (.var name sort)
  | sequence {items : List (Term μ)} :
    (∀ t ∈ items, CanonicalSorts t) → CanonicalSorts (.sequence items)
  | apply {label : Label} {arguments : List (Term μ)} :
    label.Canonical → (∀ t ∈ arguments, CanonicalSorts t) → CanonicalSorts (.apply label arguments)
  | token {text : String} {sort : KSort} : sort.Canonical → CanonicalSorts (.token text sort)
  | annotated {term : Term μ} {metadata : μ} :
    CanonicalSorts term → CanonicalSorts (.annotated term metadata)

/-- A machine word counts the items of every list, as it does those of any vector. -/
inductive Fits : Term μ → Prop where
  | injectedLabel (label : Label) : Fits (.injectedLabel label)
  | rewrite {left right : Term μ} : Fits left → Fits right → Fits (.rewrite left right)
  | as {pattern aliased : Term μ} : Fits pattern → Fits aliased → Fits (.as pattern aliased)
  | var (name : String) (sort : Option KSort) : Fits (.var name sort)
  | sequence {items : List (Term μ)} :
    items.length < 2 ^ 64 → (∀ t ∈ items, Fits t) → Fits (.sequence items)
  | apply {label : Label} {arguments : List (Term μ)} :
    arguments.length < 2 ^ 64 → (∀ t ∈ arguments, Fits t) → Fits (.apply label arguments)
  | token (text : String) (sort : KSort) : Fits (.token text sort)
  | annotated {term : Term μ} {metadata : μ} : Fits term → Fits (.annotated term metadata)

end Term

namespace Json

open KRust.Lib
open KRust.Json (Node Fields Serializer TokenReader decimal)

variable {tokens : TokenReader}

section Sorts

theorem readable_array {α : Type} {P : α → Node → Prop} {as : List α} {nodes : List Node}
    (h : List.Forall₂ (fun a node => node.Readable tokens ∧ P a node) as nodes) :
    (Node.array nodes).Readable tokens := by
  constructor
  induction h with
  | nil => simp
  | cons hnode _ ih =>
    rw [List.forall_mem_cons]
    exact ⟨hnode.1, ih⟩

/-- The nodes of a list are read as what they were written of. -/
theorem reads_list {α β : Type} {P : α → Prop} {f : Node → Except Error β} {g : α → β}
    {as : List α} {nodes : List Node}
    (h : List.Forall₂ (fun a node => node.Readable tokens ∧ (P a → f node = .ok (g a))) as nodes)
    (hP : ∀ a ∈ as, P a) : List.Forall₂ (fun node b => f node = .ok b) nodes (as.map g) := by
  induction h with
  | nil => exact .nil
  | cons hnode _ ih =>
    rw [List.forall_mem_cons] at hP
    exact .cons (hnode.2 hP.1) (ih hP.2)

theorem checkNumeral_ok {name : String}
    (h : ∀ canonical, numeralSpelling name.toList ≠ .nonCanonical canonical) :
    checkNumeral name = .ok () := by
  unfold checkNumeral
  split
  · exact absurd ‹_› (h _)
  · rfl

theorem sortHead_written {name : String} {nodes : List Node} (h : checkNumeral name = .ok ()) :
    sortHead (.object [("node", .string "KSort"), ("name", .string name), ("params", .array nodes)])
      = .ok (name, nodes) := by
  apply Fields.read_ok
  rw [sortMembers, Fields.bind_run rfl]
  show (Fields.string "name" >>= _ : Fields Error _).run _ = _
  rw [Fields.bind_run rfl, Fields.bind_lift h]
  rfl

/-- A sort is written as a tree that is read as the sort. -/
theorem sortNode_spec (tokens : TokenReader) (s : KSort) :
    ∃ node, sortNode s = .ok node ∧ node.Readable tokens ∧
      (s.Canonical → buildSort node = .ok s) := by
  induction s with
  | mk name parameters ih =>
    simp only [sortNode, buildSort, Builder.build_eq_fold] at ih ⊢
    obtain ⟨nodes, hnodes, hread⟩ := mapM_exists ih
    refine ⟨_, (sortWriter.fold_ok).mpr ⟨_, _, nodes, rfl, mapM_eq_ok.mp hnodes, rfl⟩, ?_, ?_⟩
    · apply Node.Readable.object
      · simp
      · simp only [List.forall_mem_cons, List.not_mem_nil, false_imp_iff, implies_true, and_true]
        exact ⟨.string _, .string _, readable_array hread⟩
    · rintro ⟨hname, hparameters⟩
      refine (sortBuilder.fold_ok).mpr ⟨name, nodes, parameters, ?_, ?_, rfl⟩
      · exact sortHead_written (checkNumeral_ok hname)
      · rw [← List.map_id parameters]
        exact reads_list hread hparameters

theorem labelMembers_written {name : String} {nodes : List Node} {parameters : List KSort}
    (h : buildSorts nodes = .ok parameters) :
    buildLabel (.object [("node", .string "KLabel"), ("name", .string name),
      ("params", .array nodes)]) = .ok ⟨name, parameters⟩ := by
  apply Fields.read_ok
  rw [labelMembers, Fields.bind_run rfl]
  show (Fields.string "name" >>= _ : Fields Error _).run _ = _
  rw [Fields.bind_run (a := name) rfl, Fields.bind_run (a := nodes) rfl, Fields.bind_lift h]
  rfl

/-- A label is written as a tree that is read as the label. -/
theorem labelNode_spec (tokens : TokenReader) (label : Label) :
    ∃ node, labelNode label = .ok node ∧ node.Readable tokens ∧
      (label.Canonical → buildLabel node = .ok label) := by
  rcases label with ⟨name, parameters⟩
  obtain ⟨nodes, hnodes, hread⟩ := mapM_exists fun s (_ : s ∈ parameters) => sortNode_spec tokens s
  refine ⟨_, Except.bind_eq_ok.mpr ⟨nodes, hnodes, rfl⟩, ?_, ?_⟩
  · apply Node.Readable.object
    · simp
    · simp only [List.forall_mem_cons, List.not_mem_nil, false_imp_iff, implies_true, and_true]
      exact ⟨.string _, .string _, readable_array hread⟩
  · intro hparameters
    apply labelMembers_written
    apply mapM_eq_ok.mpr
    rw [← List.map_id parameters]
    exact reads_list hread hparameters

end Sorts

section Terms

variable {μ : Type} {library : Serializer}

theorem termHead_token {text : String} {node : Node} {sort : KSort} (h : buildSort node = .ok sort) :
    termHead (.object [("node", .string "KToken"), ("sort", node), ("token", .string text)])
      = .ok (.token sort text, []) := by
  apply Fields.read_ok
  rw [termMembers, Fields.bind_run rfl]
  show (Fields.string "token" >>= _ : Fields Error _).run _ = _
  rw [Fields.bind_run (a := text) rfl, Fields.bind_run (a := node) rfl, Fields.bind_lift h]
  rfl

theorem usize_decimal {name : String} {n : Nat} (h : n < 2 ^ 64) :
    (Fields.expectNumber 64 "usize" (.number (decimal n)) name : Except Error Nat) = .ok n := by
  rw [Fields.expectNumber, decimal, Fields.parseUnsigned_toDigits h]

theorem checkArity_length (node : String) (children : List Node) :
    checkArity node children.length children = .ok () :=
  if_pos rfl

theorem termHead_apply {node : Node} {label : Label} {children : List Node}
    (hlabel : buildLabel node = .ok label) (hlength : children.length < 2 ^ 64) :
    termHead (.object [("node", .string "KApply"), ("label", node),
        ("arity", .number (decimal children.length)), ("args", .array children)])
      = .ok (.apply label, children) := by
  apply Fields.read_ok
  rw [termMembers, Fields.bind_run rfl]
  show (Fields.required "label" >>= _ : Fields Error _).run _ = _
  rw [Fields.bind_run (a := node) rfl]
  show ((Fields.required "arity" >>= _ : Fields Error _) >>= _).run _ = _
  rw [bind_assoc, Fields.bind_run (a := .number (decimal children.length)) rfl,
    Fields.bind_lift (usize_decimal hlength), Fields.bind_run (a := children) rfl,
    Fields.bind_lift (checkArity_length _ _), Fields.bind_lift hlabel]
  rfl

theorem termHead_sequence {children : List Node} (hlength : children.length < 2 ^ 64) :
    termHead (.object [("node", .string "KSequence"),
        ("arity", .number (decimal children.length)), ("items", .array children)])
      = .ok (.sequence, children) := by
  apply Fields.read_ok
  rw [termMembers, Fields.bind_run rfl]
  show ((Fields.required "arity" >>= _ : Fields Error _) >>= _).run _ = _
  rw [bind_assoc, Fields.bind_run (a := .number (decimal children.length)) rfl,
    Fields.bind_lift (usize_decimal hlength), Fields.bind_run (a := children) rfl,
    Fields.bind_lift (checkArity_length _ _)]
  rfl

theorem termHead_sortedVar {name : String} {node : Node} {sort : KSort}
    (h : buildSort node = .ok sort) :
    termHead (.object [("node", .string "KVariable"), ("name", .string name), ("sort", node)])
      = .ok (.var name (some sort), []) := by
  apply Fields.read_ok
  rw [termMembers, Fields.bind_run rfl]
  show (Fields.string "name" >>= _ : Fields Error _).run _ = _
  rw [Fields.bind_run (a := name) rfl, Fields.bind_run (a := some node) rfl]
  show ((liftM (some <$> buildSort node) : Fields Error _) >>= _).run _ = _
  rw [h]
  rfl

theorem termHead_injectedLabel {node : Node} {label : Label} (h : buildLabel node = .ok label) :
    termHead (.object [("node", .string "InjectedKLabel"), ("label", node)])
      = .ok (.injectedLabel label, []) := by
  apply Fields.read_ok
  rw [termMembers, Fields.bind_run rfl]
  show (Fields.required "label" >>= _ : Fields Error _).run _ = _
  rw [Fields.bind_run (a := node) rfl, Fields.bind_lift h]
  rfl

/-- What is written of a term: a readable tree, read as the term without annotations. -/
def Written (library : Serializer) (t : Term μ) : Prop :=
  ∃ node, termWriter.fold t = .ok node ∧ node.Readable library.reader ∧
    (t.CanonicalSorts → (termBuilder : Builder _ _ (Term μ) _).fold node = .ok t.strip)

/-- A term whose children are written. -/
theorem written_node {t : Term μ}
    (hchildren : ∀ c ∈ t.children, Written library c)
    (h : ∀ nodes, List.Forall₂ (fun c node => node.Readable library.reader ∧
      (c.CanonicalSorts → (termBuilder : Builder _ _ (Term μ) _).fold node = .ok c.strip))
        t.children nodes →
      ∃ node, finishNode t.unannotated nodes = .ok node ∧ node.Readable library.reader ∧
        (t.CanonicalSorts → (termBuilder : Builder _ _ (Term μ) _).fold node = .ok t.strip)) :
    Written library t := by
  obtain ⟨nodes, hnodes, hread⟩ := mapM_exists hchildren
  obtain ⟨node, hfinish, hreadable, hbuild⟩ := h nodes hread
  refine ⟨node, ?_, hreadable, hbuild⟩
  exact (termWriter.fold_ok).mpr ⟨_, _, nodes, rfl, mapM_eq_ok.mp hnodes, hfinish⟩

/-- A tree that enters to a head without children. -/
theorem build_leaf {node : Node} {head : TermHead} {t : Term μ}
    (henter : termHead node = .ok (head, [])) (hfinish : head.finish ([] : List (Term μ)) = .ok t) :
    (termBuilder : Builder _ _ (Term μ) _).fold node = .ok t :=
  (termBuilder.fold_ok).mpr ⟨head, [], [], henter, .nil, hfinish⟩

theorem written_token (library : Serializer) (text : String) (sort : KSort) :
    Written library (.token text sort : Term μ) := by
  obtain ⟨node, hnode, hreadable, hbuild⟩ := sortNode_spec library.reader sort
  apply written_node (by rintro c hc; cases hc)
  intro nodes _
  refine ⟨_, Except.bind_eq_ok.mpr ⟨node, hnode, rfl⟩, ?_, ?_⟩
  · apply Node.Readable.object
    · simp
    · simp only [List.forall_mem_cons, List.not_mem_nil, false_imp_iff, implies_true, and_true]
      exact ⟨.string _, hreadable, .string _⟩
  · intro h
    cases h with
    | token hsort => exact build_leaf (termHead_token (hbuild hsort)) rfl

theorem written_var (library : Serializer) (name : String) (sort : Option KSort) :
    Written library (.var name sort : Term μ) := by
  apply written_node (by rintro c hc; cases hc)
  intro nodes _
  cases sort with
  | none =>
    refine ⟨_, rfl, ?_, ?_⟩
    · apply Node.Readable.object
      · simp
      · simp only [List.forall_mem_cons, List.not_mem_nil, false_imp_iff, implies_true, and_true]
        exact ⟨.string _, .string _⟩
    · intro _
      exact build_leaf rfl rfl
  | some sort =>
    obtain ⟨node, hnode, hreadable, hbuild⟩ := sortNode_spec library.reader sort
    refine ⟨_, Except.bind_eq_ok.mpr ⟨node, hnode, rfl⟩, ?_, ?_⟩
    · apply Node.Readable.object
      · simp
      · simp only [List.forall_mem_cons, List.not_mem_nil, false_imp_iff, implies_true, and_true]
        exact ⟨.string _, .string _, hreadable⟩
    · intro h
      cases h with
      | var hsort => exact build_leaf (termHead_sortedVar (hbuild (hsort sort rfl))) rfl

theorem written_injectedLabel (library : Serializer) (label : Label) :
    Written library (.injectedLabel label : Term μ) := by
  obtain ⟨node, hnode, hreadable, hbuild⟩ := labelNode_spec library.reader label
  apply written_node (by rintro c hc; cases hc)
  intro nodes _
  refine ⟨_, Except.bind_eq_ok.mpr ⟨node, hnode, rfl⟩, ?_, ?_⟩
  · apply Node.Readable.object
    · simp
    · simp only [List.forall_mem_cons, List.not_mem_nil, false_imp_iff, implies_true, and_true]
      exact ⟨.string _, hreadable⟩
  · intro h
    cases h with
    | injectedLabel hlabel => exact build_leaf (termHead_injectedLabel (hbuild hlabel)) rfl

theorem written_sequence (hlibrary : library.Faithful) {items : List (Term μ)}
    (hlength : items.length < 2 ^ 64) (hitems : ∀ t ∈ items, Written library t) :
    Written library (.sequence items) := by
  apply written_node hitems
  intro nodes hread
  have hcount : items.length = nodes.length := hread.length_eq
  refine ⟨_, rfl, ?_, ?_⟩
  · apply Node.Readable.object
    · simp
    · simp only [List.forall_mem_cons, List.not_mem_nil, false_imp_iff, implies_true, and_true]
      exact ⟨.string _, .number (KRust.Json.isNumber_decimal hlibrary hlength), readable_array hread⟩
  · intro h
    cases h with
    | sequence hcanonical =>
      rw [hcount] at hlength ⊢
      refine (termBuilder.fold_ok).mpr ⟨_, _, _, termHead_sequence hlength,
        reads_list hread hcanonical, ?_⟩
      rw [Term.strip, Term.stripList_eq]
      rfl

theorem written_apply (hlibrary : library.Faithful) {label : Label} {arguments : List (Term μ)}
    (hlength : arguments.length < 2 ^ 64) (harguments : ∀ t ∈ arguments, Written library t) :
    Written library (.apply label arguments) := by
  obtain ⟨node, hnode, hreadable, hbuild⟩ := labelNode_spec library.reader label
  apply written_node harguments
  intro nodes hread
  have hcount : arguments.length = nodes.length := hread.length_eq
  refine ⟨_, Except.bind_eq_ok.mpr ⟨node, hnode, rfl⟩, ?_, ?_⟩
  · apply Node.Readable.object
    · simp
    · simp only [List.forall_mem_cons, List.not_mem_nil, false_imp_iff, implies_true, and_true]
      exact ⟨.string _, hreadable, .number (KRust.Json.isNumber_decimal hlibrary hlength),
        readable_array hread⟩
  · intro h
    cases h with
    | apply hlabel hcanonical =>
      rw [hcount] at hlength ⊢
      refine (termBuilder.fold_ok).mpr ⟨_, _, _, termHead_apply (hbuild hlabel) hlength,
        reads_list hread hcanonical, ?_⟩
      rw [Term.strip, Term.stripList_eq]
      rfl

theorem written_rewrite {left right : Term μ} (hleft : Written library left)
    (hright : Written library right) : Written library (.rewrite left right) := by
  apply written_node
  · rintro c (_ | ⟨_, _ | ⟨_, ⟨⟩⟩⟩)
    · exact hleft
    · exact hright
  · rintro nodes (_ | ⟨hleft, _ | ⟨hright, ⟨⟩⟩⟩)
    refine ⟨_, rfl, ?_, ?_⟩
    · apply Node.Readable.object
      · simp
      · simp only [List.forall_mem_cons, List.not_mem_nil, false_imp_iff, implies_true, and_true]
        exact ⟨.string _, hleft.1, hright.1⟩
    · intro h
      cases h with
      | rewrite hl hr =>
        exact (termBuilder.fold_ok).mpr
          ⟨.rewrite, _, _, rfl, .cons (hleft.2 hl) (.cons (hright.2 hr) .nil), rfl⟩

theorem written_as {pattern aliased : Term μ} (hpattern : Written library pattern)
    (haliased : Written library aliased) : Written library (.as pattern aliased) := by
  apply written_node
  · rintro c (_ | ⟨_, _ | ⟨_, ⟨⟩⟩⟩)
    · exact hpattern
    · exact haliased
  · rintro nodes (_ | ⟨hpattern, _ | ⟨haliased, ⟨⟩⟩⟩)
    refine ⟨_, rfl, ?_, ?_⟩
    · apply Node.Readable.object
      · simp
      · simp only [List.forall_mem_cons, List.not_mem_nil, false_imp_iff, implies_true, and_true]
        exact ⟨.string _, hpattern.1, haliased.1⟩
    · intro h
      cases h with
      | as hp ha =>
        exact (termBuilder.fold_ok).mpr
          ⟨.as, _, _, rfl, .cons (hpattern.2 hp) (.cons (haliased.2 ha) .nil), rfl⟩

/-- Every term is written. -/
theorem written (hlibrary : library.Faithful) {t : Term μ} (hfits : t.Fits) :
    Written library t := by
  induction hfits with
  | injectedLabel label => exact written_injectedLabel library label
  | rewrite _ _ hleft hright => exact written_rewrite hleft hright
  | as _ _ hpattern haliased => exact written_as hpattern haliased
  | var name sort => exact written_var library name sort
  | sequence hlength _ ih => exact written_sequence hlibrary hlength ih
  | apply hlength _ ih => exact written_apply hlibrary hlength ih
  | token text sort => exact written_token library text sort
  | @annotated term metadata _ ih =>
    obtain ⟨node, hnode, hreadable, hbuild⟩ := ih
    refine ⟨node, ?_, hreadable, ?_⟩
    · rw [Builder.fold_eq] at hnode ⊢
      exact hnode
    · intro h
      cases h with
      | annotated h => exact hbuild h

theorem read_envelope {node : Node} :
    Fields.read (.object [("format", .string format), ("version", .number (decimal version)),
      ("term", node)]) envelopeMembers = .ok (format, version, node) := by
  apply Fields.read_ok
  rw [envelopeMembers, Fields.bind_run (a := format) rfl]
  rfl

/-- The text of a term, compact or pretty, is read as the term without its annotations. -/
theorem fromStr_toText (hlibrary : library.Faithful) {t : Term μ} (hfits : t.Fits)
    (hsorts : t.CanonicalSorts) (pretty : Bool) :
    ∃ text, toText library t pretty = some text ∧ fromStr library.reader text = .ok t.strip := by
  obtain ⟨node, hnode, hreadable, hbuild⟩ := written hlibrary hfits
  have hterm : termNode t = .ok node := by
    rw [termNode, Builder.build_eq_fold]
    exact hnode
  have henvelope : (Node.object [("format", .string format),
      ("version", .number (decimal version)), ("term", node)]).Readable library.reader := by
    apply Node.Readable.object
    · simp
    · simp only [List.forall_mem_cons, List.not_mem_nil, false_imp_iff, implies_true, and_true]
      exact ⟨.string _, .number (KRust.Json.isNumber_decimal hlibrary (by decide)), hreadable⟩
  obtain ⟨text, htext, hparse⟩ := KRust.Json.parse_toString hlibrary henvelope pretty
  refine ⟨text, ?_, ?_⟩
  · rw [toText, envelopeNode, hterm]
    exact htext
  · rw [fromStr, hparse]
    show Fields.read _ envelopeMembers >>= _ = _
    rw [read_envelope]
    show buildTerm node = _
    rw [buildTerm, Builder.build_eq_fold]
    exact hbuild hsorts

end Terms

end Json

end KRust.Kast
