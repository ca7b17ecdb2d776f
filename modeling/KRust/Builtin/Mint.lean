import KRust.Builtin.Hooks
import KRust.Domain.Kind
import Mathlib.Algebra.Order.Group.Nat

/-!
The `MINT` hooks: machine integers of a fixed width `W`. A machine integer is held as its residue
below `2 ^ W`, and read without a sign or in two's complement.
-/

namespace KRust.Builtin.Mint

open KRust.Kore KRust.Backend KRust.Lib
open KRust.Domain (DomainSort mintWidth mintWidthDigits)

section Sorts

mutual

/-- `has_variable` -/
def sortHasVariable : KoreSort → Bool
  | .var _ => true
  | .application _ arguments => sortsHaveVariable arguments

def sortsHaveVariable : List KoreSort → Bool
  | [] => false
  | sort :: sorts => sortHasVariable sort || sortsHaveVariable sorts

end

instance : DomainSort KoreSort where
  asApplication
    | .var _ => none
    | .application name arguments => some (name.toList, arguments)
  hasVariable := sortHasVariable

end Sorts

section Words

/-- A literal of a machine-integer sort: the sort, its width (`none` beyond `u64`), and the
unsigned residue. -/
structure Word where
  sort : KoreSort
  width : Option Nat
  residue : Nat

/-- The width, also beyond `u64`. -/
def Word.widthValue (bigInts : BigInts) (word : Word) : HookResult Nat :=
  match word.width with
  | some width => .ok width
  | none => orPanic ((mintWidthDigits word.sort).bind bigInts.parseNat)

/-- The two's-complement reading. -/
def Word.signed (word : Word) : Int :=
  match word.width with
  | some width =>
    if 0 < width ∧ word.residue.size = width then word.residue - 2 ^ width else word.residue
  | none => word.residue

/-- `literal_width` -/
def literalWidth (sort : KoreSort) : Option (Option Nat) :=
  match mintWidth sort with
  | some (.bits width) => some (some width)
  | some .unrepresentable => some none
  | _ => none

/-- `split_once` -/
def splitOnce (mark : Char) : List Char → Option (List Char × List Char)
  | [] => none
  | c :: text =>
    if c = mark then some ([], text)
    else (splitOnce mark text).map fun (before, after) => (c :: before, after)

/-- `read_mint` -/
def readMint (bigInts : BigInts) : Term → Option Word
  | .domainValue sort value => do
    let width ← literalWidth sort
    let (residue, digits) ← splitOnce 'p' (← Utf8.decode value)
    if some digits ≠ mintWidthDigits sort ∨ residue.isEmpty ∨ ¬ residue.all Char.isDigit ∨
        (1 < residue.length ∧ residue.head? = some '0') then none
    else do
      let residue ← bigInts.parseNat residue
      if width.any fun width => width < residue.size then none
      else some ⟨sort, width, residue⟩
  | _ => none

/-- `Term::mint_of_residue` -/
def mintTerm (sort : KoreSort) (residue : Nat) : Term :=
  .domainValue sort
    (Utf8.encode (Nat.toDigits 10 residue ++ 'p' :: (mintWidthDigits sort).getD []))

/-- `read_pair` -/
def readPair (bigInts : BigInts) (hook : String) (arguments : List Term) :
    HookResult (Option (Word × Word)) :=
  match arguments with
  | [left, right] =>
    match readMint bigInts left, readMint bigInts right with
    | some left, some right =>
      if left.sort = right.sort then .ok (some (left, right))
      else .error (.unexpectedSort hook left.sort right.sort)
    | _, _ => .ok none
  | _ => .error (.wrongArity hook 2 arguments.length)

end Words

section Bounds

/-- `MAX_INT_RESULT_BITS` -/
def maxIntResultBits : Nat := 2 ^ 24

/-- The bound on a result computed from operands of `bits` bits in all. -/
def limit (env : Environment) (bits : Nat) : Nat :=
  resultSizeLimit (env.boundedFloor maxIntResultBits) bits

/-- The bits of a magnitude below a width, all of them where no word holds the width. -/
def reduced (magnitude : Nat) : Option Nat → Nat
  | some width => if width < magnitude.size then magnitude &&& (2 ^ width - 1) else magnitude
  | none => magnitude

/-- The residue of a value, or `none` when computing it needs `2 ^ W` and the width exceeds the
limit. -/
def wrap (value : Int) (width : Option Nat) (limit : Nat) : Option Nat :=
  let residue := reduced value.natAbs width
  if ¬ value < 0 ∨ residue = 0 then some residue
  else (width.filter fun width => width ≤ limit).map fun width => 2 ^ width - residue

/-- The refusal of a result of about `W` bits. -/
def refused (operation : String) (sort : KoreSort) (limit : Nat) : BuiltinResult :=
  tooLarge (operation ++ " at width " ++
    String.ofList ((mintWidthDigits sort).getD ['?']) ++ " needs more than " ++ toString limit ++
      " bits")

/-- A value reduced modulo `2 ^ W`, or its refusal. -/
def wrapped (operation : String) (sort : KoreSort) (width : Option Nat) (value : Int)
    (limit : Nat) : BuiltinResult :=
  match wrap value width limit with
  | some residue => .value (mintTerm sort residue)
  | none => refused operation sort limit

/-- `no_width` -/
def noWidth (operation : String) (total : Bool) : BuiltinResult :=
  .unsupported (.unspecified
    (operation ++ " at a machine-integer sort whose argument names no width") total)

end Bounds

section Conversions

/-- `Int2MInt` -/
def integer (bigInts : BigInts) (env : Environment) (arguments : List Term)
    (resultSort : Option KoreSort) (total : Bool) : HookResult BuiltinResult :=
  match arguments with
  | [argument] =>
    match resultSort with
    | none => .ok .notApplicable
    | some sort =>
      match mintWidth sort with
      | none => .ok .notApplicable
      | some .noWidth => .ok (noWidth "Int2MInt" total)
      | some width =>
        match readInt bigInts argument with
        | none => .ok .notApplicable
        | some value =>
          let width : Option Nat :=
            match width with
            | .bits width => some width
            | _ => none
          .ok (wrapped ("Int2MInt(" ++ describeInt value ++ ")") sort width value
            (limit env value.natAbs.size))
  | _ => .error (.wrongArity "MINT.integer" 1 arguments.length)

/-- `bitwidthMInt`; a width that no machine word holds is read from the digits. -/
def bitwidth (bigInts : BigInts) (arguments : List Term) (total : Bool) :
    HookResult BuiltinResult :=
  match arguments with
  | [argument] =>
    match mintWidth argument.sort with
    | none => .ok .notApplicable
    | some .noWidth => .ok (noWidth "bitwidthMInt" total)
    | some (.bits width) => .ok (.value (intTerm (width : Nat)))
    | some .unrepresentable =>
      (orPanic ((mintWidthDigits argument.sort).bind bigInts.parse)).map fun width =>
        .value (intTerm width)
  | _ => .error (.wrongArity "MINT.bitwidth" 1 arguments.length)

/-- `MInt2Signed` and `MInt2Unsigned` -/
def reading (bigInts : BigInts) (hook : String) (arguments : List Term) (read : Word → Int) :
    HookResult BuiltinResult :=
  match arguments with
  | [argument] => .ok (answer ((readMint bigInts argument).map fun word => intTerm (read word)))
  | _ => .error (.wrongArity hook 1 arguments.length)

end Conversions

section Operations

variable (bigInts : BigInts) (env : Environment)

/-- A hook on two literals. -/
def onPair (hook : String) (arguments : List Term) (apply : Word → Word → BuiltinResult) :
    HookResult BuiltinResult :=
  (readPair bigInts hook arguments).map fun
    | some (left, right) => apply left right
    | none => .notApplicable

/-- A binary operation on the residues, reduced modulo `2 ^ W`. -/
def wrapping (hook operation : String) (arguments : List Term) (apply : Int → Int → Int) :
    HookResult BuiltinResult :=
  onPair bigInts hook arguments fun left right =>
    wrapped operation left.sort left.width (apply left.residue right.residue)
      (limit env (saturating (left.residue.size + right.residue.size)))

/-- A unary operation on the residue, reduced modulo `2 ^ W`. -/
def wrappingUnary (hook operation : String) (arguments : List Term) (apply : Int → Int) :
    HookResult BuiltinResult :=
  match arguments with
  | [argument] =>
    match readMint bigInts argument with
    | none => .ok .notApplicable
    | some word =>
      .ok (wrapped operation word.sort word.width (apply word.residue)
        (limit env word.residue.size))
  | _ => .error (.wrongArity hook 1 arguments.length)

/-- `/uMInt` and `%uMInt` -/
def unsignedDivision (hook : String) (arguments : List Term) (apply : Nat → Nat → Nat) :
    HookResult BuiltinResult :=
  onPair bigInts hook arguments fun left right =>
    if right.residue = 0 then .bottom .stated
    else .value (mintTerm left.sort (apply left.residue right.residue))

/-- `/sMInt` and `%sMInt` -/
def signedDivision (hook operation : String) (arguments : List Term)
    (apply : Int → Int → Int) : HookResult BuiltinResult :=
  onPair bigInts hook arguments fun left right =>
    if right.residue = 0 then .bottom .stated
    else
      wrapped operation left.sort left.width (apply left.signed right.signed)
        (limit env (saturating (left.residue.size + right.residue.size)))

/-- A value of a width shifted to the left; an amount of the width or more gives 0 without
computing `2 ^ amount`. -/
def shiftedLeft (value amount : Word) (width : Nat) : BuiltinResult :=
  if width ≤ amount.residue then .value (mintTerm value.sort 0)
  else
    let kept := reduced value.residue (toU64 (width - amount.residue))
    if kept = 0 then .value (mintTerm value.sort 0)
    else
      let limit := limit env (saturating (value.residue.size + amount.residue.size))
      match (toU64 amount.residue).filter fun shift =>
          saturating (kept.size + shift) ≤ limit with
      | none => refused "<<MInt" value.sort limit
      | some shift => .value (mintTerm value.sort (kept * 2 ^ shift))

/-- `<<MInt` -/
def shiftLeft (arguments : List Term) : HookResult BuiltinResult := do
  match ← readPair bigInts "MINT.shl" arguments with
  | none => return .notApplicable
  | some (value, amount) =>
    let width ← value.widthValue bigInts
    return shiftedLeft env value amount width

/-- How a pattern is read: as its residue, or in two's complement. -/
inductive Reading where
  | unsigned
  | signed
  deriving DecidableEq

def Reading.read : Reading → Word → Int
  | .unsigned, word => word.residue
  | .signed, word => word.signed

/-- A reading divided by `2 ^ amount` and rounded down; an amount of its bits or more gives 0 or
-1 without computing `2 ^ amount`. -/
def shiftedRight (read : Int) (amount : Nat) : Int :=
  match toU64 amount with
  | some shift =>
    if shift < read.natAbs.size then read >>> shift else if read < 0 then -1 else 0
  | none => if read < 0 then -1 else 0

/-- `>>lMInt` and `>>aMInt` -/
def shiftRight (hook operation : String) (arguments : List Term) (reading : Reading) :
    HookResult BuiltinResult :=
  onPair bigInts hook arguments fun value amount =>
    wrapped operation value.sort value.width (shiftedRight (reading.read value) amount.residue)
      (limit env (saturating (value.residue.size + amount.residue.size)))

/-- A bitwise operation on the residues. -/
def bitwise (hook : String) (arguments : List Term) (apply : Nat → Nat → Nat) :
    HookResult BuiltinResult :=
  onPair bigInts hook arguments fun left right =>
    .value (mintTerm left.sort (apply left.residue right.residue))

/-- `==MInt` and `=/=MInt`; an argument is equal to itself whatever it denotes. -/
def equality [DecidableEq Term] (hook : String) (arguments : List Term) (equal : Bool) :
    HookResult BuiltinResult := do
  match ← readPair bigInts hook arguments with
  | some (left, right) =>
    return .value (boolTerm (decide (left.residue = right.residue) == equal))
  | none =>
    return if arguments[0]? = arguments[1]? then .value (boolTerm equal) else .notApplicable

/-- An ordering of two literals. -/
def order (hook : String) (arguments : List Term) (reading : Reading)
    (holds : Ordering → Bool) : HookResult BuiltinResult :=
  onPair bigInts hook arguments fun left right =>
    .value (boolTerm (holds (compare (reading.read left) (reading.read right))))

end Operations

/-- The hook of a name, on the arguments and the sort of its application. -/
def evaluate (bigInts : BigInts) (env : Environment) [DecidableEq Term] (hook : String)
    (arguments : List Term) (resultSort : Option KoreSort) (total : Bool) :
    HookResult BuiltinResult :=
  match hook with
  | "MINT.integer" => integer bigInts env arguments resultSort total
  | "MINT.bitwidth" => bitwidth bigInts arguments total
  | "MINT.svalue" => reading bigInts hook arguments Word.signed
  | "MINT.uvalue" => reading bigInts hook arguments fun word => word.residue
  | "MINT.add" => wrapping bigInts env hook "+MInt" arguments fun left right => left + right
  | "MINT.sub" => wrapping bigInts env hook "-MInt" arguments fun left right => left - right
  | "MINT.mul" => wrapping bigInts env hook "*MInt" arguments fun left right => left * right
  | "MINT.neg" => wrappingUnary bigInts env hook "--MInt" arguments fun value => -value
  | "MINT.not" => wrappingUnary bigInts env hook "~MInt" arguments fun value => -value - 1
  | "MINT.and" => bitwise bigInts hook arguments fun left right => left &&& right
  | "MINT.or" => bitwise bigInts hook arguments fun left right => left ||| right
  | "MINT.xor" => bitwise bigInts hook arguments fun left right => left ^^^ right
  | "MINT.eq" => equality bigInts hook arguments true
  | "MINT.ne" => equality bigInts hook arguments false
  | "MINT.ult" => order bigInts hook arguments .unsigned Ordering.isLT
  | "MINT.ule" => order bigInts hook arguments .unsigned Ordering.isLE
  | "MINT.ugt" => order bigInts hook arguments .unsigned Ordering.isGT
  | "MINT.uge" => order bigInts hook arguments .unsigned Ordering.isGE
  | "MINT.slt" => order bigInts hook arguments .signed Ordering.isLT
  | "MINT.sle" => order bigInts hook arguments .signed Ordering.isLE
  | "MINT.sgt" => order bigInts hook arguments .signed Ordering.isGT
  | "MINT.sge" => order bigInts hook arguments .signed Ordering.isGE
  | "MINT.udiv" => unsignedDivision bigInts hook arguments fun left right => left / right
  | "MINT.urem" => unsignedDivision bigInts hook arguments fun left right => left % right
  | "MINT.sdiv" => signedDivision bigInts env hook "/sMInt" arguments Int.tdiv
  | "MINT.srem" => signedDivision bigInts env hook "%sMInt" arguments Int.tmod
  | "MINT.shl" => shiftLeft bigInts env arguments
  | "MINT.lshr" => shiftRight bigInts env hook ">>lMInt" arguments .unsigned
  | "MINT.ashr" => shiftRight bigInts env hook ">>aMInt" arguments .signed
  | _ => .ok (.unsupported .notImplemented)

end KRust.Builtin.Mint
