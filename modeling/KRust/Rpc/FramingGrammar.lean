import KRust.Rpc.Framing

/-!
The grammar of the messages, as trees that keep their blanks: numbers without leading zeros,
strings without control characters. What a request says is read off the tree of its object.
-/

namespace KRust.Rpc.Framing

section Scalars

def Digits (text : List UInt8) : Prop := text ≠ [] ∧ text.all isDigit

def Integer (text : List UInt8) : Prop :=
  text = ascii "0" ∨ Digits text ∧ text.head? ≠ some (byte '0')

def Fraction (text : List UInt8) : Prop :=
  text = [] ∨ ∃ digits, text = byte '.' :: digits ∧ Digits digits

def Sign (text : List UInt8) : Prop := text = [] ∨ text = ascii "+" ∨ text = ascii "-"

def Exponent (text : List UInt8) : Prop :=
  text = [] ∨ ∃ e sign digits, text = e :: (sign ++ digits) ∧ (e = byte 'e' ∨ e = byte 'E') ∧
    Sign sign ∧ Digits digits

/-- A number without its minus sign. -/
def Unsigned (text : List UInt8) : Prop :=
  ∃ integer fraction exponent, text = integer ++ (fraction ++ exponent) ∧
    Integer integer ∧ Fraction fraction ∧ Exponent exponent

inductive Word : List UInt8 → Prop where
  | null : Word (ascii "null")
  | true : Word (ascii "true")
  | false : Word (ascii "false")
  | unsigned {text : List UInt8} : Unsigned text → Word text
  | negative {text : List UInt8} : Unsigned text → Word (byte '-' :: text)

/-- A string after its opening quote, to its closing quote. -/
inductive Quoted : List UInt8 → Prop where
  | close : Quoted [byte '"']
  | plain {b : UInt8} {text : List UInt8} :
    b ≠ byte '"' → b ≠ byte '\\' → ¬b < 0x20 → Quoted text → Quoted (b :: text)
  | escape {b : UInt8} {text : List UInt8} :
    b ∈ ascii "\"\\/bfnrt" → Quoted text → Quoted (byte '\\' :: b :: text)
  | unicode {a b c d : UInt8} {text : List UInt8} :
    [a, b, c, d].all isHexDigit → Quoted text →
      Quoted (byte '\\' :: byte 'u' :: a :: b :: c :: d :: text)

end Scalars

section Trees

/-- What stands before a value: in an object a name, after its quote, and the colon. -/
inductive Label where
  | element (blank : List UInt8)
  | member (before name after blank : List UInt8)

namespace Label

def text : Label → List UInt8
  | .element blank => blank
  | .member before name after blank => before ++ byte '"' :: (name ++ after ++ byte ':' :: blank)

/-- The name of a member, with its quotes. -/
def key : Label → List UInt8
  | .element _ => []
  | .member _ name _ _ => byte '"' :: name

def Valid (isObject : Bool) : Label → Prop
  | .element blank => isObject = false ∧ blank.all isWhitespace
  | .member before name after blank =>
    isObject = true ∧ before.all isWhitespace ∧ Quoted name ∧ after.all isWhitespace ∧
      blank.all isWhitespace

end Label

mutual

inductive Tree where
  | word (text : List UInt8)
  | string (text : List UInt8)
  | empty (isObject : Bool) (blank : List UInt8)
  | node (isObject : Bool) (label : Label) (first : Tree) (rest : Rest)

/-- An array or object after one of its values. -/
inductive Rest where
  | close (blank : List UInt8)
  | comma (blank : List UInt8) (label : Label) (item : Tree) (rest : Rest)

end

def opening (isObject : Bool) : UInt8 := if isObject then byte '\x7b' else byte '['

def closing (isObject : Bool) : UInt8 := if isObject then byte '\x7d' else byte ']'

mutual

def Tree.text : Tree → List UInt8
  | .word text => text
  | .string text => byte '"' :: text
  | .empty isObject blank => opening isObject :: (blank ++ [closing isObject])
  | .node isObject label first rest =>
    opening isObject :: (label.text ++ (first.text ++ rest.text isObject))

def Rest.text (isObject : Bool) : Rest → List UInt8
  | .close blank => blank ++ [closing isObject]
  | .comma blank label item rest =>
    blank ++ byte ',' :: (label.text ++ (item.text ++ rest.text isObject))

end

mutual

def Tree.Valid : Tree → Prop
  | .word text => Word text
  | .string text => Quoted text
  | .empty _ blank => blank.all isWhitespace
  | .node isObject label first rest => label.Valid isObject ∧ first.Valid ∧ rest.Valid isObject

def Rest.Valid (isObject : Bool) : Rest → Prop
  | .close blank => blank.all isWhitespace
  | .comma blank label item rest =>
    blank.all isWhitespace ∧ label.Valid isObject ∧ item.Valid ∧ rest.Valid isObject

end

namespace Tree

/-- A number or a literal. -/
def isWord : Tree → Bool
  | .word _ => true
  | _ => false

def isObject : Tree → Bool
  | .empty isObject _ | .node isObject _ _ _ => isObject
  | _ => false

/-- The first byte, as the scanner looks at it. -/
def firstByte (t : Tree) : UInt8 := t.text.headD 0

end Tree

/-- What may follow a value without being taken for a part of it. -/
def Follows (rest : List UInt8) : Prop := ∀ b ∈ rest.head?, mayFollow b

/-- A message: a value after blanks; the byte after a scalar does not go on with it. -/
structure Message (stream : List UInt8) where
  blank : List UInt8
  tree : Tree
  rest : List UInt8
  text_eq : stream = blank ++ (tree.text ++ rest)
  blank_all : blank.all isWhitespace
  valid : tree.Valid
  follows : tree.isWord → Follows rest

/-- The offset at which the message ends. -/
def Message.stop {stream : List UInt8} (m : Message stream) : Nat :=
  m.blank.length + m.tree.text.length

end Trees

section Requests

abbrev Entry : Type := List UInt8 × Tree

def Rest.entries : Rest → List Entry
  | .close _ => []
  | .comma _ label item rest => (label.key, item) :: rest.entries

/-- The members of an object. -/
def Tree.entries : Tree → List Entry
  | .node true label first rest => (label.key, first) :: rest.entries
  | _ => []

variable (names : Names)

def allDecode (entries : List Entry) : Bool :=
  entries.all fun entry => (decodeName names entry.1).isSome

/-- The text of the last member of the name. -/
def lastNamed (name : String) (entries : List Entry) : Option Tree :=
  ((entries.filter fun entry => decodeName names entry.1 = some name.toList).getLast?).map
    Prod.snd

/-- The logging member of the parameters. -/
def logging (params : Tree) : Option (List UInt8) :=
  if params.isObject ∧ allDecode names params.entries then
    (lastNamed names "haskell-logging" params.entries).map Tree.text
  else none

/-- What a request says, as the text of its members. -/
def requestTexts (t : Tree) : Option ((Fin 4 → Option (List UInt8)) × Option (List UInt8)) :=
  if t.isObject ∧ allDecode names t.entries then
    some (fun i => (lastNamed names (requestMembers.get i) t.entries).map Tree.text,
      (lastNamed names "params" t.entries).bind (logging names))
  else none

end Requests

end KRust.Rpc.Framing
