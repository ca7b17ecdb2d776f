import KRust.Kore.Ast
import KRust.Kore.Document
import KRust.Kore.Literal

/-!
Compact and width-aware printing of textual KORE: the ops of sorts, symbols, variables and
patterns come off an explicit stack of tasks, those of sentences and definitions from
documents, and all are laid out by the renderer.
-/

set_option linter.unusedSectionVars false

namespace KRust.Kore

inductive PrintStyle where
  | compact
  | pretty
  deriving DecidableEq

structure PrintOptions where
  style : PrintStyle
  width : UInt64
  indent : UInt64

/-- A unit of printing work: a syntax node to expand, a leaf that becomes one op, or a
delimited list of further tasks. -/
inductive SyntaxTask where
  | pattern (p : Pattern)
  | sort (s : KoreSort)
  | symbol (s : Symbol)
  | var (v : Variable)
  | text (value : List Char)
  | line (flat : List Char)
  | nestStart
  | nestEnd
  | groupStart
  | groupEnd
  | delimited (opening closing : Char) (items : List SyntaxTask)

namespace SyntaxTask

section Expansion

def word (text : String) : SyntaxTask := .text text.toList

/-- The items of a delimited list with a comma and a line between them. -/
def separate : List SyntaxTask → List SyntaxTask
  | [] => []
  | [item] => [item]
  | item :: items => item :: .text [','] :: .line [' '] :: separate items

def braces (items : List SyntaxTask) : SyntaxTask := .delimited '\x7b' '\x7d' items

def parentheses (items : List SyntaxTask) : SyntaxTask := .delimited '(' ')' items

/-- `push_grouped`. -/
def grouped (tasks : List SyntaxTask) : List SyntaxTask :=
  SyntaxTask.groupStart :: tasks ++ [SyntaxTask.groupEnd]

/-- `sorted_connective`: the layout of the connectives with one sort parameter. -/
def sortedConnective (head : String) (s : KoreSort) (operands : List Pattern) :
    List SyntaxTask :=
  grouped [word head, .sort s, .text ['\x7d'], parentheses (operands.map .pattern)]

def sortedBinder (head : String) (s : KoreSort) (v : Variable) (body : Pattern) :
    List SyntaxTask :=
  grouped [word head, .sort s, .text ['\x7d'], parentheses [.var v, .pattern body]]

/-- `fixpoint`: the layout of the binders of set variables. -/
def fixpoint (head : String) (v : Variable) (body : Pattern) : List SyntaxTask :=
  grouped [word head, parentheses [.var v, .pattern body]]

def twoSorted (head : String) (operandSort resultSort : KoreSort) (operands : List Pattern) :
    List SyntaxTask :=
  grouped [word head, braces [.sort operandSort, .sort resultSort],
    parentheses (operands.map .pattern)]

/-- The tasks that a pattern is replaced by. -/
def expandPattern : Pattern → List SyntaxTask
  | .string value => [.text (quote value)]
  | .var v => [.var v]
  | .application f arguments => [.symbol f, parentheses (arguments.map .pattern)]
  | .top s => [word "\\top\x7b", .sort s, word "\x7d()"]
  | .bottom s => [word "\\bottom\x7b", .sort s, word "\x7d()"]
  | .and s arguments => sortedConnective "\\and\x7b" s arguments
  | .or s arguments => sortedConnective "\\or\x7b" s arguments
  | .not s argument => sortedConnective "\\not\x7b" s [argument]
  | .next s argument => sortedConnective "\\next\x7b" s [argument]
  | .implies s left right => sortedConnective "\\implies\x7b" s [left, right]
  | .iff s left right => sortedConnective "\\iff\x7b" s [left, right]
  | .rewrites s left right => sortedConnective "\\rewrites\x7b" s [left, right]
  | .exists s v body => sortedBinder "\\exists\x7b" s v body
  | .forall s v body => sortedBinder "\\forall\x7b" s v body
  | .mu v body => fixpoint "\\mu\x7b\x7d" v body
  | .nu v body => fixpoint "\\nu\x7b\x7d" v body
  | .ceil operand result argument => twoSorted "\\ceil" operand result [argument]
  | .floor operand result argument => twoSorted "\\floor" operand result [argument]
  | .equals operand result left right => twoSorted "\\equals" operand result [left, right]
  | .in operand result left right => twoSorted "\\in" operand result [left, right]
  | .domainValue s value =>
    [word "\\dv\x7b", .sort s,
      .text ('\x7d' :: '(' :: quoteAs value (.ofDomainValue s) ++ [')'])]
  | .associativeApplication associativity f arguments =>
    let head := match associativity with
      | .left => "\\left-assoc\x7b\x7d("
      | .right => "\\right-assoc\x7b\x7d("
    grouped [word head, .symbol f, parentheses (arguments.map .pattern), .text [')']]

/-- `expand`: the tasks that a node or a delimited list is replaced by, in the order of
their output. -/
def expand : SyntaxTask → List SyntaxTask
  | .delimited opening closing items =>
    if items.isEmpty then [.text [opening, closing]]
    else [.groupStart, .text [opening], .nestStart, .line []] ++ separate items
      ++ [.nestEnd, .line [], .text [closing], .groupEnd]
  | .sort (.var name) => [.text name.toList]
  | .sort (.application name arguments) => [.text name.toList, braces (arguments.map .sort)]
  | .symbol f => [.text f.name.toList, braces (f.sortParameters.map .sort)]
  | .var v => [.text (v.name.toList ++ [':']), .sort v.sort]
  | .pattern p => expandPattern p
  | leaf => [leaf]

/-- The op of a leaf. -/
def op (indent : UInt64) : SyntaxTask → Option Op
  | .text value => some (.text value)
  | .line flat => some (.line flat)
  | .nestStart => some (.nestStart indent)
  | .nestEnd => some (.nestEnd indent)
  | .groupStart => some .groupStart
  | .groupEnd => some .groupEnd
  | _ => none

end Expansion

section Weight

mutual

/-- A bound on the work that a task leads to. -/
noncomputable def weight : SyntaxTask → Nat
  | .pattern p => 32 * sizeOf p
  | .sort s => 32 * sizeOf s
  | .symbol s => 32 * sizeOf s
  | .var v => 32 * sizeOf v
  | .delimited _ _ items => 10 + weights items
  | _ => 1

noncomputable def weights : List SyntaxTask → Nat
  | [] => 0
  | item :: items => weight item + 2 + weights items

end

/-- The work that is left on a stack. -/
noncomputable def total (stack : List SyntaxTask) : Nat := (stack.map weight).sum

@[simp] theorem total_nil : total [] = 0 := rfl

@[simp] theorem total_cons (task : SyntaxTask) (stack : List SyntaxTask) :
    total (task :: stack) = task.weight + total stack := by
  simp [total]

@[simp] theorem total_append (s t : List SyntaxTask) : total (s ++ t) = total s + total t := by
  simp [total]

theorem total_separate (items : List SyntaxTask) : total (separate items) ≤ weights items := by
  fun_induction separate items with
  | case1 => simp [weights]
  | case2 item => simp [weights]
  | case3 item items _ ih =>
    simp only [total_cons, weights, weight]
    omega

theorem weights_sorts (sorts : List KoreSort) :
    weights (sorts.map .sort) + 32 ≤ 32 * sizeOf sorts := by
  induction sorts with
  | nil => simp [weights]
  | cons s sorts ih =>
    simp only [List.map_cons, weights, weight, List.cons.sizeOf_spec]
    omega

theorem weights_patterns (ps : List Pattern) :
    weights (ps.map .pattern) + 32 ≤ 32 * sizeOf ps := by
  induction ps with
  | nil => simp [weights]
  | cons p ps ih =>
    simp only [List.map_cons, weights, weight, List.cons.sizeOf_spec]
    omega

theorem total_expandPattern (p : Pattern) : total (expandPattern p) < weight (.pattern p) := by
  have hlist := weights_patterns
  cases p with
  | application symbol arguments | and s arguments | or s arguments
  | associativeApplication side symbol arguments =>
    have := hlist arguments
    simp [expandPattern, sortedConnective, grouped, parentheses, word, weight]
    omega
  | _ =>
    simp [expandPattern, sortedConnective, sortedBinder, fixpoint, twoSorted, grouped, parentheses,
      braces, word, weight, weights]
    try omega

theorem weight_pos_of_op {task : SyntaxTask} {indent : UInt64} {o : Op}
    (h : task.op indent = some o) : 0 < task.weight := by
  cases task with
  | text | line | nestStart | nestEnd | groupStart | groupEnd => simp [weight]
  | _ => cases h

theorem total_expand {task : SyntaxTask} {indent : UInt64} (h : task.op indent = none) :
    total (expand task) < weight task := by
  cases task with
  | pattern p => exact total_expandPattern p
  | delimited opening closing items =>
    have := total_separate items
    rw [expand]
    split
    · simp [weight]
      omega
    · simp [weight]
      omega
  | sort s =>
    cases s with
    | var name => simp [expand, weight]; omega
    | application name arguments =>
      have := weights_sorts arguments
      simp [expand, weight, braces]
      omega
  | symbol symbol =>
    have := weights_sorts symbol.sortParameters
    rcases symbol with ⟨name, sorts⟩
    simp [expand, weight, braces] at *
    omega
  | var v =>
    rcases v with ⟨kind, name, s⟩
    simp [expand, weight]
    omega
  | _ => cases h

end Weight

/-- `SyntaxOps`: the ops of the tasks on a stack, the top first. -/
def ops (indent : UInt64) (stack : List SyntaxTask) : List Op :=
  match stack with
  | [] => []
  | task :: stack =>
    match _h : task.op indent with
    | some op => op :: ops indent stack
    | none => ops indent (expand task ++ stack)
termination_by total stack
decreasing_by
  · have hpos := weight_pos_of_op _h
    rw [total_cons]
    omega
  · have hexpand := total_expand _h
    rw [total_append, total_cons]
    omega

end SyntaxTask

section Documents

variable (indent : UInt64)

/-- `syntax_doc`. -/
def syntaxDoc (root : SyntaxTask) : Doc := SyntaxTask.ops indent [root]

def join (separator : Doc) : List Doc → Doc
  | [] => []
  | [document] => document
  | document :: documents => document ++ separator ++ join separator documents

def delimited (opening closing : Char) (documents : List Doc) : Doc :=
  if documents.isEmpty then Doc.text [opening, closing]
  else
    .group (.concat [.text [opening],
      .nest indent (.concat [.lineBreak, join (.concat [.text [','], .line]) documents]),
      .lineBreak, .text [closing]])

def attributesDoc (attributes : Attributes) : Doc :=
  delimited indent '[' ']' (attributes.patterns.map fun p => syntaxDoc indent (.pattern p))

def parametersDoc (parameters : List String) : Doc :=
  delimited indent '{' '}' (parameters.map fun name => .text name.toList)

def sortsDoc (sorts : List KoreSort) : Doc :=
  delimited indent '(' ')' (sorts.map fun s => syntaxDoc indent (.sort s))

/-- `declaration_pattern_doc`: an axiom or a claim. -/
def declarationPatternDoc (keyword : String) (parameters : List String) (p : Pattern)
    (attributes : Attributes) : Doc :=
  .group (.concat [.text keyword.toList, parametersDoc indent parameters,
    .nest indent (.concat [.line, syntaxDoc indent (.pattern p), .line,
      attributesDoc indent attributes])])

def sentenceDoc : Sentence → Doc
  | .importModule name attributes =>
    .group (.concat [.text ("import ".toList ++ name.toList), .line,
      attributesDoc indent attributes])
  | .sortDeclaration hooked name parameters attributes =>
    .group (.concat [
      .text ((if hooked then "hooked-" else "").toList ++ "sort ".toList ++ name.toList),
      parametersDoc indent parameters, .line, attributesDoc indent attributes])
  | .symbolDeclaration hooked symbol argumentSorts resultSort attributes =>
    .group (.concat [.text (if hooked then "hooked-symbol " else "symbol ").toList,
      syntaxDoc indent (.symbol symbol), sortsDoc indent argumentSorts, .text " : ".toList,
      syntaxDoc indent (.sort resultSort), .line, attributesDoc indent attributes])
  | .aliasDeclaration aliased argumentSorts resultSort left right attributes =>
    .group (.concat [.text "alias ".toList, syntaxDoc indent (.symbol aliased),
      sortsDoc indent argumentSorts, .text " : ".toList, syntaxDoc indent (.sort resultSort),
      .text " where".toList,
      .nest indent (.concat [.line, syntaxDoc indent (.pattern left), .text " :=".toList, .line,
        syntaxDoc indent (.pattern right), .line, attributesDoc indent attributes])])
  | .axiomSentence parameters p attributes =>
    declarationPatternDoc indent "axiom" parameters p attributes
  | .claimSentence parameters p attributes =>
    declarationPatternDoc indent "claim" parameters p attributes

/-- `module_ops`: the header, the sentences on lines of their own, and the end mark. -/
def moduleOps (m : Module) : List Op :=
  let body := if m.sentences.isEmpty then [] else
    Op.nestStart indent :: (m.sentences.flatMap fun s => Op.hardLine :: sentenceDoc indent s)
      ++ [Op.nestEnd indent]
  Op.text ("module ".toList ++ m.name.toList) :: body
    ++ [Op.hardLine, .text "endmodule ".toList] ++ attributesDoc indent m.attributes

/-- `definition_ops`: the attributes, then each module on a line of its own. -/
def definitionOps (d : Definition) : List Op :=
  attributesDoc indent d.attributes ++ d.modules.flatMap fun m => Op.hardLine :: moduleOps indent m

end Documents

section Printing

def PrintStyle.renderMode : PrintStyle → RenderMode
  | .compact => .compact
  | .pretty => .pretty

def renderOps (options : PrintOptions) (ops : List Op) : Option (List Char) :=
  render ops options.style.renderMode options.width

def printPattern (options : PrintOptions) (p : Pattern) : Option (List Char) :=
  renderOps options (SyntaxTask.ops options.indent [.pattern p])

def printSentence (options : PrintOptions) (s : Sentence) : Option (List Char) :=
  renderOps options (sentenceDoc options.indent s)

def printModule (options : PrintOptions) (m : Module) : Option (List Char) :=
  renderOps options (moduleOps options.indent m)

def printDefinition (options : PrintOptions) (d : Definition) : Option (List Char) :=
  renderOps options (definitionOps options.indent d)

end Printing

end KRust.Kore
