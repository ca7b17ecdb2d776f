import KRust.Inner.Prediction
import KRust.Lib.Derivations

/-!
The analysis is the least fixpoint of the grammar: the nullable sorts derive the empty sequence of
items, the lexemes of a sort are those that what it derives can begin with, and the productions
predicted for a lexeme are those that it cannot rule out.
-/

namespace KRust.Inner.Prediction

open KRust.Lib
open Relation (ReflTransGen)

section Grammars

variable (grammar : Grammar)

namespace Grammar

/-- The items of a production with the sorts that the recognizer predicts at them. -/
def spelled : Item × Option (Fin grammar.sorts) → Word (Item) (Fin grammar.sorts)
  | (.nonTerminal, sortId) => (sortId.map .nonterminal).toList
  | (item, _) => [.terminal item]

def word (index : Fin grammar.size) : Word Item (Fin grammar.sorts) :=
  let production := grammar.productions index
  (production.items.zip production.itemSortIds).flatMap grammar.spelled

/-- The active productions, as rules that rewrite a sort. -/
def rules (rule : ContextFreeRule Item (Fin grammar.sorts)) : Prop :=
  ∃ index ∈ grammar.active, rule = ⟨(grammar.productions index).resultId, grammar.word index⟩

/-- What the analysis keeps of an item. -/
def reads (word : Word Item (Fin grammar.sorts)) : List (Symbol grammar.sorts) :=
  word.map fun
    | .terminal item => .lexical (grammar.lexemeId item)
    | .nonterminal sort => .nonTerminal sort

variable {grammar} in
@[simp] theorem reads_nil : grammar.reads [] = [] := rfl

variable {grammar} in
@[simp] theorem reads_terminal (item : Item) (word : Word Item (Fin grammar.sorts)) :
    grammar.reads (.terminal item :: word) =
      .lexical (grammar.lexemeId item) :: grammar.reads word := rfl

variable {grammar} in
@[simp] theorem reads_nonterminal (sort : Fin grammar.sorts)
    (word : Word Item (Fin grammar.sorts)) :
    grammar.reads (.nonterminal sort :: word) = .nonTerminal sort :: grammar.reads word := rfl

theorem symbols_eq (index : Fin grammar.size) :
    grammar.symbols index = grammar.reads (grammar.word index) := by
  simp only [symbols, word, reads, List.map_flatMap]
  rw [List.filterMap_eq_flatMap_toList]
  congr 1
  funext ⟨item, sortId⟩
  cases item <;> cases sortId <;> rfl

theorem length_word (index : Fin grammar.size) :
    (grammar.word index).length = (grammar.productions index).items.length := by
  have haligned := (grammar.productions index).aligned
  simp only [word]
  generalize (grammar.productions index).items = items at haligned ⊢
  generalize (grammar.productions index).itemSortIds = sortIds at haligned ⊢
  induction items generalizing sortIds with
  | nil => simp
  | cons item items ih =>
    cases sortIds with
    | nil => simp at haligned
    | cons sortId sortIds =>
      simp only [List.map_cons, List.cons.injEq] at haligned
      rw [List.zip_cons_cons, List.flatMap_cons, List.length_append, ih _ haligned.2,
        List.length_cons, Nat.add_comm]
      cases item <;> cases sortId <;> simp_all [spelled, Item.isNonTerminal]

theorem mem_active {index : Fin grammar.size} :
    index ∈ grammar.active ↔ index ∈ grammar.byResult (grammar.productions index).resultId := by
  simp only [active, List.mem_flatMap, List.mem_finRange, true_and]
  constructor
  · rintro ⟨sort, hindex⟩
    rwa [grammar.result_eq sort index hindex]
  · exact fun hindex => ⟨_, hindex⟩

theorem record_eq {α : Type} (value : Fin grammar.size → Option α) (index : Fin grammar.size) :
    grammar.record value index = if index ∈ grammar.active then value index else none := by
  have hfold : ∀ (indexes : List (Fin grammar.size)) (table : Fin grammar.size → Option α),
      indexes.foldl (fun table index => Function.update table index (value index)) table index =
        if index ∈ indexes then value index else table index := by
    intro indexes
    induction indexes with
    | nil => simp
    | cons first indexes ih =>
      intro table
      rw [List.foldl_cons, ih]
      by_cases hfirst : index = first
      · subst hfirst
        simp
      · simp [hfirst]
  exact hfold _ _

end Grammar

end Grammars

section Epsilon

variable {sorts : Nat} {entries : List (Fin sorts × List (Symbol sorts))}

/-- A production of nonterminals only. -/
def Lexless (entries : List (Fin sorts × List (Symbol sorts))) (index : Fin entries.length) :
    Prop := ∀ item ∈ (entries.get index).2, item.isLexical = false

instance (index : Fin entries.length) : Decidable (Lexless entries index) :=
  inferInstanceAs (Decidable (∀ item ∈ (entries.get index).2, item.isLexical = false))

def children (entries : List (Fin sorts × List (Symbol sorts))) (index : Fin entries.length) :
    List (Fin sorts) := (entries.get index).2.filterMap Symbol.child

def resultOf (entries : List (Fin sorts × List (Symbol sorts))) (index : Fin entries.length) :
    Fin sorts := (entries.get index).1

theorem length_children {index : Fin entries.length} (h : Lexless entries index) :
    (children entries index).length = (entries.get index).2.length := by
  rw [children, List.length_filterMap_eq_countP, List.countP_eq_length]
  intro item hitem
  cases item with
  | nonTerminal sort => rfl
  | lexical lexeme => cases h _ hitem

theorem count_call (index : Fin entries.length) (children : List (Fin sorts))
    (callers : Fin sorts → List (Fin entries.length)) (sort : Fin sorts)
    (other : Fin entries.length) :
    (children.foldl (fun callers child =>
      Function.update callers child (callers child ++ [index])) callers sort).count other =
      (callers sort).count other + if other = index then children.count sort else 0 := by
  induction children generalizing callers with
  | nil => simp
  | cons child children ih =>
    rw [List.foldl_cons, ih, List.count_cons]
    by_cases hchild : sort = child <;> by_cases hother : other = index
    · subst hchild hother
      simp [List.count_append]
      omega
    · subst hchild
      simp [List.count_append, hother, Ne.symm hother]
    · subst hother
      simp [hchild, Ne.symm hchild]
    · simp [hchild, hother]

/-- What registering productions leads to. -/
structure Enrolled (entries : List (Fin sorts × List (Symbol sorts)))
    (seen : List (Fin entries.length)) (state : Registered entries) : Prop where
  remaining_eq : ∀ index ∈ seen, Lexless entries index →
    state.counting.remaining index = some (children entries index).length
  count_eq : ∀ sort index, (state.callers sort).count index =
    if index ∈ seen ∧ Lexless entries index then (children entries index).count sort else 0
  once : state.counting.pending.Nodup
  proved_iff : ∀ sort, state.counting.proved sort = true ↔ sort ∈ state.counting.pending
  derived : ∀ sort ∈ state.counting.pending,
    Derivable (Lexless entries) (children entries) (resultOf entries) sort
  concluded : ∀ index ∈ seen, Lexless entries index → children entries index = [] →
    state.counting.proved (resultOf entries index) = true

theorem Enrolled.register {seen : List (Fin entries.length)} {state : Registered entries}
    (h : Enrolled entries seen state) {index : Fin entries.length} (hindex : index ∉ seen) :
    Enrolled entries (index :: seen) (register entries state index) := by
  unfold Prediction.register
  generalize hentry : entries.get index = entry
  obtain ⟨result, items⟩ := entry
  simp only
  have hresult : resultOf entries index = result := congrArg Prod.fst hentry
  have hitems : (entries.get index).2 = items := congrArg Prod.snd hentry
  have hchildren : items.filterMap Symbol.child = children entries index := by
    rw [children, hitems]
  split
  · -- a production with a lexeme is left alone
    rename_i hlexical
    obtain ⟨item, hitem, hlexical⟩ := List.any_eq_true.mp hlexical
    have hnot : ¬ Lexless entries index := fun hlexless => by
      have hfree := hlexless item (hitems ▸ hitem)
      rw [hlexical] at hfree
      cases hfree
    refine ⟨fun other hother hlexless => ?_, fun sort other => ?_, h.once, h.proved_iff, h.derived,
      fun other hother hlexless => ?_⟩
    · rcases List.mem_cons.mp hother with rfl | hother
      · exact (hnot hlexless).elim
      · exact h.remaining_eq other hother hlexless
    · rw [h.count_eq]
      by_cases hother : other = index
      · subst hother
        simp [hnot]
      · simp [hother]
    · rcases List.mem_cons.mp hother with rfl | hother
      · exact (hnot hlexless).elim
      · exact h.concluded other hother hlexless
  · rename_i hfree
    have hlexless : Lexless entries index := by
      intro item hitem
      rw [hitems] at hitem
      simpa using fun hlexical => hfree (List.any_eq_true.mpr ⟨item, hitem, hlexical⟩)
    have hlength : items.length = (children entries index).length := by
      rw [length_children hlexless, hitems]
    have hempty : items.isEmpty = true ↔ children entries index = [] := by
      rw [List.isEmpty_iff, ← List.length_eq_zero_iff, hlength, List.length_eq_zero_iff]
    have hremaining : ∀ other ∈ index :: seen, Lexless entries other →
        Function.update state.counting.remaining index (some items.length) other =
          some (children entries other).length := by
      intro other hother hclause
      by_cases hsame : other = index
      · subst hsame
        rw [Function.update_self, hlength]
      · rw [Function.update_of_ne hsame]
        exact h.remaining_eq other ((List.mem_cons.mp hother).resolve_left hsame) hclause
    have hcount : ∀ sort other, ((items.filterMap Symbol.child).foldl (fun callers child =>
        Function.update callers child (callers child ++ [index])) state.callers sort).count other =
        if other ∈ index :: seen ∧ Lexless entries other then (children entries other).count sort
        else 0 := by
      intro sort other
      rw [hchildren, count_call, h.count_eq]
      by_cases hsame : other = index
      · subst hsame
        simp [hindex, hlexless]
      · simp [hsame]
    split
    · rename_i hproved
      simp only [Bool.and_eq_true, Bool.not_eq_true'] at hproved
      refine ⟨hremaining, hcount, ?_, fun sort => ?_, fun sort hsort => ?_,
        fun other hother hclause hnil => ?_⟩
      · refine List.nodup_append'.mpr ⟨h.once, List.nodup_singleton _, fun sort hsort hnew => ?_⟩
        rw [List.mem_singleton.mp hnew, ← h.proved_iff, hproved.2] at hsort
        cases hsort
      · rw [mark_iff, h.proved_iff, List.mem_append, List.mem_singleton, or_comm]
      · rcases List.mem_append.mp hsort with hold | hnew
        · exact h.derived sort hold
        · rw [List.mem_singleton.mp hnew, ← hresult]
          refine .of hlexless fun child hchild => ?_
          rw [hempty.mp hproved.1] at hchild
          cases hchild
      · rw [mark_iff]
        rcases List.mem_cons.mp hother with rfl | hold
        · exact .inl hresult
        · exact .inr (h.concluded other hold hclause hnil)
    · rename_i hkept
      refine ⟨hremaining, hcount, h.once, h.proved_iff, h.derived,
        fun other hother hclause hnil => ?_⟩
      rcases List.mem_cons.mp hother with rfl | hold
      · rw [hresult]
        by_contra hfresh
        rw [hempty.mpr hnil, Bool.true_and, Bool.not_eq_true', ← Bool.not_eq_true] at hkept
        exact hkept hfresh
      · exact h.concluded other hold hclause hnil

theorem enrolled_foldl (indexes : List (Fin entries.length)) {seen : List (Fin entries.length)}
    {state : Registered entries} (h : Enrolled entries seen state) (hnodup : (indexes ++ seen).Nodup) :
    Enrolled entries (indexes.reverse ++ seen) (indexes.foldl (register entries) state) := by
  induction indexes generalizing seen state with
  | nil => exact h
  | cons index indexes ih =>
    rw [List.cons_append, List.nodup_cons, List.mem_append, not_or] at hnodup
    rw [List.foldl_cons, List.reverse_cons, List.append_assoc]
    refine ih (h.register hnodup.1.2) ?_
    exact (List.perm_middle.nodup_iff).mpr
      (List.nodup_cons.mpr ⟨fun hmem => (List.mem_append.mp hmem).elim hnodup.1.1 hnodup.1.2,
        hnodup.2⟩)

theorem enrolled_registered : Enrolled entries (List.finRange entries.length).reverse
    (registered entries) := by
  have hnone : Enrolled entries []
      ⟨⟨fun _ => false, fun _ => none, []⟩, fun _ => []⟩ :=
    ⟨by simp, by simp, .nil, by simp, by simp, by simp⟩
  have hall := enrolled_foldl (List.finRange entries.length) hnone
    (by simpa using List.nodup_finRange _)
  rwa [List.append_nil] at hall

/-- The worklist marks what the productions without lexemes derive. -/
theorem epsilonOf_iff (sort : Fin sorts) : epsilonOf entries sort = true ↔
    Derivable (Lexless entries) (children entries) (resultOf entries) sort := by
  have h : Enrolled entries _ (registered entries) := enrolled_registered
  have hseen : ∀ index, index ∈ (List.finRange entries.length).reverse := by simp
  have hcallers : Counting.Registers (Lexless entries) (children entries)
      (registered entries).callers := by
    refine ⟨fun sort index hlexless => ?_, fun sort index hindex => ?_⟩
    · rw [h.count_eq, if_pos ⟨hseen index, hlexless⟩]
    · by_contra hnot
      have hcount := h.count_eq sort index
      rw [if_neg fun hboth => hnot hboth.2, List.count_eq_zero] at hcount
      exact hcount hindex
  refine Counting.run_iff hcallers ⟨fun index hlexless => ?_, h.once,
    fun sort hsort => (h.proved_iff sort).mpr hsort,
    fun sort hsort => h.derived sort ((h.proved_iff sort).mp hsort),
    fun index hlexless hzero => ?_⟩ sort
  · rw [h.remaining_eq index (hseen index) hlexless, Option.some.injEq, eq_comm,
      List.countP_eq_length]
    intro sort _
    simp only [Counting.isOpen, Bool.not_eq_true', ← Bool.not_eq_true, Bool.and_eq_true,
      h.proved_iff, decide_eq_true_eq, not_and, not_not, imp_self]
  · rw [h.remaining_eq index (hseen index) hlexless, Option.some.injEq,
      List.length_eq_zero_iff] at hzero
    exact h.concluded index (hseen index) hlexless hzero

end Epsilon

section Sorts

variable {grammar : Grammar}

theorem mem_reads_child {word : Word Item (Fin grammar.sorts)} {sort : Fin grammar.sorts} :
    sort ∈ (grammar.reads word).filterMap Symbol.child ↔ .nonterminal sort ∈ word := by
  rw [List.mem_filterMap]
  constructor
  · rintro ⟨symbol, hsymbol, hchild⟩
    obtain ⟨x, hx, rfl⟩ := List.mem_map.mp hsymbol
    cases x with
    | terminal item => cases hchild
    | nonterminal sort =>
      cases hchild
      exact hx
  · exact fun h => ⟨.nonTerminal sort, List.mem_map.mpr ⟨_, h, rfl⟩, rfl⟩

theorem get_entries (index : Fin grammar.entries.length) : ∃ production ∈ grammar.active,
    grammar.entries.get index =
      ((grammar.productions production).resultId, grammar.reads (grammar.word production)) := by
  obtain ⟨production, hmem, heq⟩ := List.mem_map.mp (List.get_mem grammar.entries index)
  exact ⟨production, hmem, by rw [← heq, grammar.symbols_eq]⟩

theorem exists_entry {production : Fin grammar.size} (h : production ∈ grammar.active) :
    ∃ index, grammar.entries.get index =
      ((grammar.productions production).resultId, grammar.reads (grammar.word production)) := by
  rw [← grammar.symbols_eq]
  exact List.get_of_mem (List.mem_map_of_mem h)

/-- A sort is marked when it derives the empty sequence of items. -/
theorem epsilon_iff (sort : Fin grammar.sorts) :
    epsilonOf grammar.entries sort = true ↔ Nullable grammar.rules sort := by
  rw [epsilonOf_iff]
  constructor
  · refine Derivable.least _ fun index hlexless hall => ?_
    obtain ⟨production, hactive, hentry⟩ := get_entries index
    have hresult : resultOf grammar.entries index = (grammar.productions production).resultId :=
      congrArg Prod.fst hentry
    rw [hresult]
    refine nullable_iff.mpr ⟨_, ⟨production, hactive, rfl⟩, rfl, fun x hx => ?_⟩
    cases x with
    | terminal item =>
      have hfree := hlexless (.lexical (grammar.lexemeId item))
        (by rw [hentry]; exact List.mem_map.mpr ⟨_, hx, rfl⟩)
      cases hfree
    | nonterminal child =>
      refine hall child ?_
      rw [children, hentry]
      exact mem_reads_child.mpr hx
  · refine Nullable.least _ ?_
    rintro rule ⟨production, hactive, rfl⟩ hall
    obtain ⟨index, hentry⟩ := exists_entry hactive
    have hresult : resultOf grammar.entries index = (grammar.productions production).resultId :=
      congrArg Prod.fst hentry
    rw [← hresult]
    refine .of (fun symbol hsymbol => ?_) fun child hchild => ?_
    · rw [hentry] at hsymbol
      obtain ⟨x, hx, rfl⟩ := List.mem_map.mp hsymbol
      obtain ⟨n, rfl, -⟩ := hall x hx
      rfl
    · rw [children, hentry] at hchild
      obtain ⟨n, heq, hn⟩ := hall _ (mem_reads_child.mp hchild)
      cases heq
      exact hn

end Sorts

section First

variable {grammar : Grammar} {epsilon : Fin grammar.sorts → Bool}

/-- An item that the scanner knows as a lexeme. -/
def Reads (grammar : Grammar) (lexeme : Nat) (starts : Item → Prop) : Prop :=
  ∃ item, grammar.lexemeId item = some lexeme ∧ starts item

theorem reads_eq_iff {lexeme : Nat} {item : Item} :
    Reads grammar lexeme (item = ·) ↔ grammar.lexemeId item = some lexeme := by
  simp [Reads]

theorem reads_or {lexeme : Nat} {p q : Item → Prop} :
    Reads grammar lexeme (fun item => p item ∨ q item) ↔
      Reads grammar lexeme p ∨ Reads grammar lexeme q := by
  simp only [Reads, and_or_left, exists_or]

theorem reads_and {lexeme : Nat} {p : Prop} {q : Item → Prop} :
    Reads grammar lexeme (fun item => p ∧ q item) ↔ p ∧ Reads grammar lexeme q := by
  simp only [Reads, and_left_comm, exists_and_left]

/-- The items that lead a production are registered with its result. -/
theorem lead_spec (hepsilon : ∀ sort, epsilon sort = true ↔ Nullable grammar.rules sort)
    (result : Fin grammar.sorts) (leads : Leads grammar.sorts)
    (word : Word Item (Fin grammar.sorts)) :
    (∀ sort lexeme, ((lead epsilon result leads (grammar.reads word)).first sort).contains lexeme =
        true ↔ (leads.first sort).contains lexeme = true ∨ sort = result ∧
          Reads grammar lexeme fun item => Leading grammar.rules word (.terminal item)) ∧
      ∀ child sort, sort ∈ (lead epsilon result leads (grammar.reads word)).dependents child ↔
        sort ∈ leads.dependents child ∨ sort = result ∧
          Leading grammar.rules word (.nonterminal child) := by
  induction word generalizing leads with
  | nil => simp [lead, Reads, leading_nil]
  | cons x word ih =>
    cases x with
    | terminal item =>
      simp only [Grammar.reads_terminal, leading_terminal_cons, Symbol.terminal.injEq,
        reads_eq_iff, reduceCtorEq, and_false, or_false]
      cases grammar.lexemeId item with
      | none => simp [lead]
      | some id =>
        refine ⟨fun sort lexeme => ?_, by simp [lead]⟩
        simp only [lead, Option.some.injEq]
        by_cases hsort : sort = result
        · subst hsort
          rw [Function.update_self, LexemeSet.contains_insert, Bool.or_eq_true, decide_eq_true_eq,
            or_comm, @eq_comm _ lexeme, and_iff_right rfl]
        · simp [hsort]
    | nonterminal child =>
      simp only [Grammar.reads_nonterminal, leading_nonterminal_cons, reduceCtorEq, false_or,
        reads_and, Symbol.nonterminal.injEq, lead]
      have hdependents : ∀ other sort, sort ∈ Function.update leads.dependents child
          (insert result (leads.dependents child)) other ↔
          sort ∈ leads.dependents other ∨ sort = result ∧ child = other := by
        intro other sort
        by_cases hother : other = child
        · subst hother
          simp [or_comm]
        · simp [hother, Ne.symm hother]
      split
      · rename_i hnullable
        obtain ⟨hfirst, hrest⟩ := ih { leads with
          dependents := Function.update leads.dependents child
            (insert result (leads.dependents child)) }
        simp only [hfirst, hrest, hdependents, (hepsilon child).mp hnullable, true_and, and_or_left,
          or_assoc, implies_true, and_self]
      · rename_i hnullable
        have hnot : ¬ Nullable grammar.rules child := fun h => hnullable ((hepsilon child).mpr h)
        simp [hdependents, hnot]

/-- The items that lead some production of a sort. -/
theorem leadsOf_spec (hepsilon : ∀ sort, epsilon sort = true ↔ Nullable grammar.rules sort) :
    (∀ sort lexeme, ((leadsOf epsilon grammar.entries).first sort).contains lexeme = true ↔
        Reads grammar lexeme (Starts grammar.rules sort)) ∧
      ∀ child sort, sort ∈ (leadsOf epsilon grammar.entries).dependents child ↔
        KRust.Lib.Leads grammar.rules sort child := by
  have hfold : ∀ (active : List (Fin grammar.size)) (leads : Leads grammar.sorts),
      let last := (active.map fun index =>
          ((grammar.productions index).resultId, grammar.symbols index)).foldl
        (fun leads (result, items) => lead epsilon result leads items) leads
      (∀ sort lexeme, (last.first sort).contains lexeme = true ↔
          (leads.first sort).contains lexeme = true ∨ ∃ index ∈ active,
            sort = (grammar.productions index).resultId ∧ Reads grammar lexeme fun item =>
              Leading grammar.rules (grammar.word index) (.terminal item)) ∧
        ∀ child sort, sort ∈ last.dependents child ↔
          sort ∈ leads.dependents child ∨ ∃ index ∈ active,
            sort = (grammar.productions index).resultId ∧
              Leading grammar.rules (grammar.word index) (.nonterminal child) := by
    intro active
    induction active with
    | nil => simp
    | cons index active ih =>
      intro leads
      obtain ⟨hfirst, hdependents⟩ := lead_spec hepsilon (grammar.productions index).resultId leads
        (grammar.word index)
      rw [← grammar.symbols_eq] at hfirst hdependents
      obtain ⟨hfirst', hdependents'⟩ := ih (lead epsilon (grammar.productions index).resultId leads
        (grammar.symbols index))
      simp only [List.map_cons, List.foldl_cons, List.exists_mem_cons_iff]
      refine ⟨fun sort lexeme => ?_, fun child sort => ?_⟩
      · rw [hfirst', hfirst, or_assoc]
      · rw [hdependents', hdependents, or_assoc]
  obtain ⟨hfirst, hdependents⟩ := hfold grammar.active ⟨fun _ => .empty, fun _ => ∅⟩
  have hempty : ∀ lexeme, LexemeSet.empty.contains lexeme = false := fun _ => rfl
  refine ⟨fun sort lexeme => ?_, fun child sort => ?_⟩
  · rw [leadsOf, Grammar.entries, hfirst]
    simp only [hempty, reduceCtorEq, false_or, Reads, Starts, Grammar.rules]
    constructor
    · rintro ⟨index, hactive, rfl, item, hid, hlead⟩
      exact ⟨item, hid, _, ⟨index, hactive, rfl⟩, rfl, hlead⟩
    · rintro ⟨item, hid, rule, ⟨index, hactive, rfl⟩, rfl, hlead⟩
      exact ⟨index, hactive, rfl, item, hid, hlead⟩
  · rw [leadsOf, Grammar.entries, hdependents]
    simp only [Finset.notMem_empty, false_or, KRust.Lib.Leads, Grammar.rules]
    constructor
    · rintro ⟨index, hactive, rfl, hlead⟩
      exact ⟨_, ⟨index, hactive, rfl⟩, rfl, hlead⟩
    · rintro ⟨rule, ⟨index, hactive, rfl⟩, rfl, hlead⟩
      exact ⟨index, hactive, rfl, hlead⟩

theorem contains_eq_false_of_isEmpty {set : LexemeSet} (h : set.isEmpty = true) (lexeme : Nat) :
    set.contains lexeme = false := by
  rw [LexemeSet.contains_eq]
  cases hword : set.words[lexeme / 64]? with
  | none => simp
  | some word =>
    have hzero := List.all_eq_true.mp h word (List.mem_of_getElem? hword)
    rw [decide_eq_true_eq] at hzero
    simp [hzero]

/-- The set of a sort has the lexemes that what it derives can begin with. -/
theorem first_iff (hepsilon : ∀ sort, epsilon sort = true ↔ Nullable grammar.rules sort)
    (sort : Fin grammar.sorts) (lexeme : Nat) :
    (firstOf epsilon grammar.entries sort).contains lexeme = true ↔
      Reads grammar lexeme (First grammar.rules sort) := by
  obtain ⟨hfirst, hdependents⟩ := leadsOf_spec hepsilon
  have hedge : ∀ m a, a ∈ ((leadsOf epsilon grammar.entries).dependents m).sort (· ≤ ·) ↔
      KRust.Lib.Leads grammar.rules a m := by
    intro m a
    rw [Finset.mem_sort, hdependents]
  rw [← LexemeSet.mem_elements, firstOf]
  refine (Propagating.mem_run_iff LexemeSet.uniting ?_ ?_ sort lexeme).trans ?_
  · intro a ha
    exact List.mem_filter.mpr ⟨List.mem_finRange a, ha⟩
  · intro a ha
    refine List.mem_filter.mpr ⟨List.mem_finRange a, ?_⟩
    by_contra hempty
    rw [Bool.not_eq_true, Bool.not_eq_false'] at hempty
    refine ha (Finset.eq_empty_of_forall_notMem fun id hid => ?_)
    have hcontains := LexemeSet.mem_elements.mp hid
    rw [contains_eq_false_of_isEmpty hempty] at hcontains
    cases hcontains
  · simp only [hedge, LexemeSet.uniting, LexemeSet.mem_elements, hfirst, First, Reads]
    constructor
    · rintro ⟨m, hreach, item, hid, hstart⟩
      exact ⟨item, hid, m, hreach.swap, hstart⟩
    · rintro ⟨item, hid, m, hreach, hstart⟩
      exact ⟨m, hreach.swap, item, hid, hstart⟩

end First

section Rests

variable {grammar : Grammar} {epsilon : Fin grammar.sorts → Bool}
  {first : Fin grammar.sorts → LexemeSet}

theorem reads_firstOf_terminal {lexeme : Nat} {item : Item}
    {word : Word Item (Fin grammar.sorts)} :
    Reads grammar lexeme (FirstOf grammar.rules (.terminal item :: word)) ↔
      grammar.lexemeId item = some lexeme := by
  rw [← reads_eq_iff]
  exact exists_congr fun other => and_congr_right fun _ => firstOf_terminal_cons

theorem reads_firstOf_nonterminal {lexeme : Nat} {sort : Fin grammar.sorts}
    {word : Word Item (Fin grammar.sorts)} :
    Reads grammar lexeme (FirstOf grammar.rules (.nonterminal sort :: word)) ↔
      Reads grammar lexeme (First grammar.rules sort) ∨
        Nullable grammar.rules sort ∧ Reads grammar lexeme (FirstOf grammar.rules word) := by
  rw [← reads_and, ← reads_or]
  exact exists_congr fun other => and_congr_right fun _ => firstOf_nonterminal_cons

/-- One suffix of the table. -/
theorem foldr_prepend (hepsilon : ∀ sort, epsilon sort = true ↔ Nullable grammar.rules sort)
    (hfirst : ∀ sort lexeme, (first sort).contains lexeme = true ↔
      Reads grammar lexeme (First grammar.rules sort))
    (word : Word Item (Fin grammar.sorts)) :
    let rest := (grammar.reads word).foldr (prepend epsilon first) (.empty, true)
    (∀ lexeme, rest.1.contains lexeme = true ↔
        Reads grammar lexeme (FirstOf grammar.rules word)) ∧
      (rest.2 = true ↔ ∀ x ∈ word, Optional grammar.rules x) := by
  induction word with
  | nil => exact ⟨fun lexeme => by simp [Reads, firstOf_nil, LexemeSet.empty,
      LexemeSet.contains], by simp⟩
  | cons x word ih =>
    obtain ⟨hset, hnullable⟩ := ih
    rw [List.forall_mem_cons]
    cases x with
    | terminal item =>
      simp only [Grammar.reads_terminal, List.foldr_cons, reads_firstOf_terminal]
      cases grammar.lexemeId item with
      | none => simp [prepend, LexemeSet.empty, LexemeSet.contains]
      | some id =>
        simp only [prepend, optional_terminal, LexemeSet.contains_insert]
        simp [LexemeSet.empty, LexemeSet.contains, eq_comm]
    | nonterminal child =>
      simp only [Grammar.reads_nonterminal, List.foldr_cons, reads_firstOf_nonterminal, prepend,
        optional_nonterminal, ← hepsilon]
      split
      · rename_i hchild
        simp [LexemeSet.contains_unionWith, hset, hfirst, hnullable, hchild]
      · rename_i hchild
        simp [hfirst, hchild]

theorem restsOf_spec (hepsilon : ∀ sort, epsilon sort = true ↔ Nullable grammar.rules sort)
    (hfirst : ∀ sort lexeme, (first sort).contains lexeme = true ↔
      Reads grammar lexeme (First grammar.rules sort))
    (word : Word Item (Fin grammar.sorts)) :
    let rests := restsOf epsilon first (grammar.reads word)
    rests.first.length = word.length + 1 ∧ rests.nullable.length = word.length + 1 ∧
      (∀ dot set, rests.first[dot]? = some set → ∀ lexeme, set.contains lexeme = true ↔
        Reads grammar lexeme (FirstOf grammar.rules (word.drop dot))) ∧
      ∀ dot nullable, rests.nullable[dot]? = some nullable →
        (nullable = true ↔ ∀ x ∈ word.drop dot, Optional grammar.rules x) := by
  have hlength : (grammar.reads word).length = word.length := List.length_map _
  have hdrop : ∀ dot, (grammar.reads word).drop dot = grammar.reads (word.drop dot) :=
    fun dot => List.map_drop.symm
  refine ⟨by simp [restsOf, hlength], by simp [restsOf, hlength], fun dot set hset => ?_,
    fun dot nullable hnullable => ?_⟩
  · simp only [restsOf, List.getElem?_map, List.getElem?_scanr, hdrop] at hset
    split at hset
    · cases hset
      exact (foldr_prepend hepsilon hfirst (word.drop dot)).1
    · cases hset
  · simp only [restsOf, List.getElem?_map, List.getElem?_scanr, hdrop] at hnullable
    split at hnullable
    · cases hnullable
      exact (foldr_prepend hepsilon hfirst (word.drop dot)).2
    · cases hnullable

end Rests

section Candidates

variable {size sorts : Nat}

/-- The productions of a bucket are those of its sort, parted by their first items. -/
theorem bucketOf_eq (firstItems : Fin size → Option (Symbol sorts)) (indexes : List (Fin size)) :
    let bucket := bucketOf firstItems indexes
    bucket.nonlexicalFirst = indexes.filter (fun index => !(firstItems index).any Symbol.isLexical) ∧
      (∀ lexeme, bucket.lexicalByLexeme lexeme =
        indexes.filter fun index => firstItems index = some (.lexical (some lexeme))) ∧
      bucket.lexicalTotal = indexes.countP fun index => (firstItems index).any Symbol.isLexical := by
  have hfold : ∀ bucket : PredictionBucket size,
      let last := indexes.foldl (PredictionBucket.add firstItems) bucket
      last.nonlexicalFirst = bucket.nonlexicalFirst ++
          indexes.filter (fun index => !(firstItems index).any Symbol.isLexical) ∧
        (∀ lexeme, last.lexicalByLexeme lexeme = bucket.lexicalByLexeme lexeme ++
          indexes.filter fun index => firstItems index = some (.lexical (some lexeme))) ∧
        last.lexicalTotal = bucket.lexicalTotal +
          indexes.countP fun index => (firstItems index).any Symbol.isLexical := by
    induction indexes with
    | nil => simp
    | cons index indexes ih =>
      intro bucket
      obtain ⟨hnonlexical, hlexical, htotal⟩ := ih (bucket.add firstItems index)
      simp only [List.foldl_cons, hnonlexical, htotal, hlexical, List.filter_cons, List.countP_cons]
      simp only [PredictionBucket.add]
      rcases firstItems index with _ | sort | _ | id
      · simp
      · simp [Symbol.isLexical]
      · simp [Symbol.isLexical]
        omega
      · refine ⟨by simp [Symbol.isLexical], fun lexeme => ?_, by simp [Symbol.isLexical]; omega⟩
        by_cases hid : lexeme = id
        · simp [hid]
        · simp [hid, Ne.symm hid]
  simpa [bucketOf] using hfold ⟨[], fun _ => [], 0⟩

namespace PredictionCandidates

variable {candidates rest : PredictionCandidates size} {index : Fin size}

/-- Both lists are in order, and no production is in both. -/
structure Ordered (candidates : PredictionCandidates size) : Prop where
  nonlexical : candidates.nonlexical.Pairwise (· < ·)
  lexical : candidates.lexical.Pairwise (· < ·)
  disjoint : ∀ index ∈ candidates.nonlexical, index ∉ candidates.lexical

def Mem (index : Fin size) (candidates : PredictionCandidates size) : Prop :=
  index ∈ candidates.nonlexical ∨ index ∈ candidates.lexical

theorem Ordered.next (h : Ordered candidates) (hnext : candidates.next = some (index, rest)) :
    Ordered rest ∧ (∀ other, Mem other candidates ↔ other = index ∨ Mem other rest) ∧
      ∀ other, Mem other rest → index < other := by
  obtain ⟨nonlexical, lexical⟩ := candidates
  obtain ⟨hnonlexical, hlexical, hdisjoint⟩ := h
  simp only at hnonlexical hlexical hdisjoint
  cases nonlexical with
  | nil =>
    cases lexical with
    | nil => cases hnext
    | cons right lexical =>
      cases hnext
      rw [List.pairwise_cons] at hlexical
      exact ⟨⟨.nil, hlexical.2, by simp⟩, by simp [Mem], by simpa [Mem] using hlexical.1⟩
  | cons left nonlexical =>
    rw [List.pairwise_cons] at hnonlexical
    rw [List.forall_mem_cons] at hdisjoint
    cases lexical with
    | nil =>
      cases hnext
      exact ⟨⟨hnonlexical.2, .nil, by simp⟩, by simp [Mem], by simpa [Mem] using hnonlexical.1⟩
    | cons right lexical =>
      have hlater := (List.pairwise_cons.mp hlexical).1
      simp only [PredictionCandidates.next] at hnext
      split at hnext
      · rename_i hlt
        cases hnext
        refine ⟨⟨hnonlexical.2, hlexical, hdisjoint.2⟩, fun other => by
          simp [Mem, or_assoc], fun other hother => ?_⟩
        rcases hother with hother | hother
        · exact hnonlexical.1 other hother
        · rcases List.mem_cons.mp hother with rfl | hother
          · exact hlt
          · exact hlt.trans (hlater other hother)
      · rename_i hnot
        cases hnext
        have hne : left ≠ index := fun heq => hdisjoint.1 (by simp [heq])
        have hlt : index < left := lt_of_le_of_ne (le_of_not_gt hnot) hne.symm
        refine ⟨⟨List.pairwise_cons.mpr hnonlexical, (List.pairwise_cons.mp hlexical).2, ?_⟩,
          fun other => by simp [Mem, or_left_comm], fun other hother => ?_⟩
        · rw [List.forall_mem_cons]
          exact ⟨fun hmem => hdisjoint.1 (List.mem_cons_of_mem _ hmem),
            fun other hother hmem => hdisjoint.2 other hother (List.mem_cons_of_mem _ hmem)⟩
        · rcases hother with hother | hother
          · rcases List.mem_cons.mp hother with rfl | hother
            · exact hlt
            · exact hlt.trans (hnonlexical.1 other hother)
          · exact hlater other hother

/-- The candidates come in the order of their declarations, each once. -/
theorem Ordered.toList (h : Ordered candidates) :
    candidates.toList.Pairwise (· < ·) ∧ ∀ index, index ∈ candidates.toList ↔ Mem index candidates := by
  fun_induction PredictionCandidates.toList candidates with
  | case1 candidates index rest hnext ih =>
    obtain ⟨hrest, hmem, hlater⟩ := h.next hnext
    obtain ⟨hpairwise, hiff⟩ := ih hrest
    refine ⟨List.pairwise_cons.mpr ⟨fun other hother => hlater other ((hiff other).mp hother),
      hpairwise⟩, fun other => ?_⟩
    rw [List.mem_cons, hiff, hmem]
  | case2 candidates hnext =>
    obtain ⟨nonlexical, lexical⟩ := candidates
    cases nonlexical with
    | nil =>
      cases lexical with
      | nil => exact ⟨.nil, by simp [Mem]⟩
      | cons right lexical => cases hnext
    | cons left nonlexical =>
      cases lexical with
      | nil => cases hnext
      | cons right lexical =>
        simp only [PredictionCandidates.next] at hnext
        split at hnext <;> cases hnext

end PredictionCandidates

end Candidates

section Predictions

variable (grammar : Grammar)

/-- The first item can be empty, or there is none. -/
def NullableFirst (index : Fin grammar.size) : Prop :=
  ∀ x ∈ (grammar.word index).head?, Rewrites grammar.rules [x] []

/-- What the items derive can begin with a lexeme. -/
def CanBegin (word : Word Item (Fin grammar.sorts)) (lexeme : Nat) : Prop :=
  Reads grammar lexeme (Begins grammar.rules word)

variable {grammar}

theorem canBegin_iff {word : Word Item (Fin grammar.sorts)} {lexeme : Nat} :
    CanBegin grammar word lexeme ↔ Reads grammar lexeme (FirstOf grammar.rules word) :=
  exists_congr fun _ => and_congr_right fun _ => begins_iff

theorem epsilon_new (sort : Fin grammar.sorts) :
    (PredictionAnalysis.new grammar).epsilon sort = true ↔ Nullable grammar.rules sort :=
  epsilon_iff sort

theorem first_new (sort : Fin grammar.sorts) (lexeme : Nat) :
    ((PredictionAnalysis.new grammar).first sort).contains lexeme = true ↔
      Reads grammar lexeme (First grammar.rules sort) :=
  first_iff epsilon_iff sort lexeme

theorem firstItems_new {index : Fin grammar.size} (h : index ∈ grammar.active) :
    (PredictionAnalysis.new grammar).firstItems index =
      (grammar.reads (grammar.word index)).head? := by
  simp only [PredictionAnalysis.new, grammar.record_eq, if_pos h, grammar.symbols_eq]

/-- A candidate that is not ruled out is nullable-first or can begin with the winner. -/
theorem kept_iff {index : Fin grammar.size} (h : index ∈ grammar.active) (winner : Option Nat) :
    let analysis := PredictionAnalysis.new grammar
    ((!(analysis.firstItems index).any Symbol.isLexical) = true ∨
        ∃ lexeme, winner = some lexeme ∧
          analysis.firstItems index = some (.lexical (some lexeme))) ∧
      (!(analysis.canFilter index && analysis.cannotStart index winner)) = true ↔
    NullableFirst grammar index ∨
      ∃ lexeme, winner = some lexeme ∧ CanBegin grammar (grammar.word index) lexeme := by
  simp only [canBegin_iff, NullableFirst, PredictionAnalysis.canFilter,
    PredictionAnalysis.cannotStart, firstItems_new h]
  rcases grammar.word index with _ | ⟨item | child, word⟩
  · simp
  · have hnone : ¬ Rewrites grammar.rules [.terminal item] [] := by
      simp [rewrites_nil_iff]
    simp only [Grammar.reads_terminal, List.head?_cons, Option.mem_def, Option.some.injEq,
      forall_eq', hnone, false_or, reads_firstOf_terminal]
    cases hid : grammar.lexemeId item with
    | none => simp [Symbol.isLexical]
    | some id =>
      cases winner with
      | none => simp [Symbol.isLexical]
      | some winner => simp [Symbol.isLexical, eq_comm]
  · have hnullable : Rewrites grammar.rules [.nonterminal child] [] ↔
        (PredictionAnalysis.new grammar).epsilon child = true := (epsilon_new child).symm
    simp only [Grammar.reads_nonterminal, List.head?_cons, Option.mem_def, Option.some.injEq,
      forall_eq', hnullable, reads_firstOf_nonterminal, ← first_new, ← epsilon_new]
    cases (PredictionAnalysis.new grammar).epsilon child with
    | true => simp [Symbol.isLexical]
    | false => cases winner <;> simp [Symbol.isLexical]

/-- The candidates of a sort are its productions without a lexeme in front and those with the
winner in front. -/
theorem candidates_new (sort : Fin grammar.sorts) (winner : Option Nat) :
    let analysis := PredictionAnalysis.new grammar
    let candidates := (analysis.candidates sort winner).1.toList
    candidates.Pairwise (· < ·) ∧ ∀ index, index ∈ candidates ↔
      index ∈ grammar.byResult sort ∧ ((!(analysis.firstItems index).any Symbol.isLexical) = true ∨
        ∃ lexeme, winner = some lexeme ∧
          analysis.firstItems index = some (.lexical (some lexeme))) := by
  intro analysis
  obtain ⟨hnonlexical, hlexical, -⟩ := bucketOf_eq analysis.firstItems (grammar.byResult sort)
  have hordered : (analysis.candidates sort winner).1.Ordered ∧
      ∀ index, PredictionCandidates.Mem index (analysis.candidates sort winner).1 ↔
        index ∈ grammar.byResult sort ∧
          ((!(analysis.firstItems index).any Symbol.isLexical) = true ∨
            ∃ lexeme, winner = some lexeme ∧
              analysis.firstItems index = some (.lexical (some lexeme))) := by
    have hascending := grammar.ascending sort
    have hbucket : analysis.buckets sort = bucketOf analysis.firstItems (grammar.byResult sort) :=
      rfl
    simp only [PredictionAnalysis.candidates, PredictionCandidates.Mem, hbucket, hnonlexical]
    cases winner with
    | none =>
      refine ⟨⟨hascending.filter _, .nil, by simp⟩, fun index => ?_⟩
      simp [List.mem_filter]
    | some winner =>
      simp only [Option.map_some, Option.getD_some, hlexical]
      refine ⟨⟨hascending.filter _, hascending.filter _, fun index hfirst hlater => ?_⟩,
        fun index => ?_⟩
      · have hone := (List.mem_filter.mp hfirst).2
        have htwo := (List.mem_filter.mp hlater).2
        rw [decide_eq_true_eq] at htwo
        rw [htwo] at hone
        cases hone
      · simp only [List.mem_filter, decide_eq_true_eq, Option.some.injEq, exists_eq_left']
        rw [and_or_left]
  obtain ⟨hpairwise, hmem⟩ := hordered.1.toList
  exact ⟨hpairwise, fun index => (hmem index).trans (hordered.2 index)⟩

open Classical in
theorem predicted_new (sort : Fin grammar.sorts) (winner : Option Nat) :
    (PredictionAnalysis.new grammar).predicted sort winner =
      (grammar.byResult sort).filter fun index => NullableFirst grammar index ∨
        ∃ lexeme, winner = some lexeme ∧ CanBegin grammar (grammar.word index) lexeme := by
  obtain ⟨hpairwise, hmem⟩ := candidates_new sort winner
  refine (hpairwise.filter _).eq_of_mem_iff ((grammar.ascending sort).filter _) fun index => ?_
  rw [List.mem_filter, List.mem_filter, hmem, and_assoc, decide_eq_true_eq]
  refine and_congr_right fun hindex => kept_iff ?_ winner
  rw [grammar.mem_active, grammar.result_eq sort index hindex]
  exact hindex

open Classical in
/-- The analysis of a grammar is the least fixpoint of its productions. -/
theorem PredictionAnalysis.new_least (grammar : Grammar) :
    let analysis := PredictionAnalysis.new grammar
    (∀ sort, analysis.epsilon sort = true ↔ Rewrites grammar.rules [.nonterminal sort] []) ∧
      (∀ sort lexeme, (analysis.first sort).contains lexeme = true ↔
        CanBegin grammar [.nonterminal sort] lexeme) ∧
      (∀ index, index ∈ grammar.active → ∃ rests, analysis.rests index = some rests ∧
        rests.first.length = (grammar.productions index).items.length + 1 ∧
        rests.nullable.length = (grammar.productions index).items.length + 1 ∧
        (∀ dot set, rests.first[dot]? = some set → ∀ lexeme, set.contains lexeme = true ↔
          CanBegin grammar ((grammar.word index).drop dot) lexeme) ∧
        ∀ dot nullable, rests.nullable[dot]? = some nullable →
          (nullable = true ↔ Rewrites grammar.rules ((grammar.word index).drop dot) [])) ∧
      (∀ index, index ∉ grammar.active → (analysis.rests index).isNone) ∧
      ∀ sort winner, analysis.predicted sort winner =
        (grammar.byResult sort).filter fun index => NullableFirst grammar index ∨
          ∃ lexeme, winner = some lexeme ∧ CanBegin grammar (grammar.word index) lexeme := by
  refine ⟨epsilon_new, fun sort lexeme => ?_, fun index hactive => ?_, fun index hhidden => ?_,
    predicted_new⟩
  · rw [first_new, canBegin_iff]
    exact exists_congr fun item => and_congr_right fun _ => firstOf_nonterminal.symm
  · have hepsilon : ∀ sort, epsilonOf grammar.entries sort = true ↔
        Nullable grammar.rules sort := epsilon_iff
    obtain ⟨hfirst, hnullable, hsets, hflags⟩ :=
      restsOf_spec hepsilon (first_iff hepsilon) (grammar.word index)
    rw [← grammar.symbols_eq, grammar.length_word] at *
    refine ⟨_, by simp only [PredictionAnalysis.new, grammar.record_eq, if_pos hactive], hfirst,
      hnullable, fun dot set hset lexeme => ?_, fun dot nullable hflag => ?_⟩
    · rw [hsets dot set hset, canBegin_iff]
    · rw [hflags dot nullable hflag, rewrites_nil_iff]
  · simp only [PredictionAnalysis.new, grammar.record_eq, if_neg hhidden, Option.isNone_none]

end Predictions

end KRust.Inner.Prediction
