import KRust.Builtin.Hooks
import KRust.Lib.Occurrences

/-!
The `STRING` hooks that cut and search strings. Positions count code points, and what is searched
is UTF-8. A slice panics where it does not start and end on code points.
-/

namespace KRust.Builtin.Search

open KRust.Backend KRust.Lib

section Slices

/-- `code_point_offsets`, from an offset. -/
def codePointOffsets : Nat → List Char → List Nat
  | _, [] => []
  | offset, c :: text => offset :: codePointOffsets (offset + c.utf8Size) text

/-- `is_char_boundary` -/
def isCharBoundary (bytes : List UInt8) (offset : Nat) : Bool :=
  offset = 0 || offset = bytes.length ||
    bytes[offset]?.any fun byte => !Occurrences.isContinuation byte

/-- `&value[start..end]` -/
def slice (bytes : List UInt8) (start stop : Nat) : HookResult (List UInt8) :=
  if start ≤ stop ∧ isCharBoundary bytes start ∧ isCharBoundary bytes stop then
    .ok ((bytes.take stop).drop start)
  else .error .panic

/-- `&value[start..]` -/
def sliceFrom (bytes : List UInt8) (start : Nat) : HookResult (List UInt8) :=
  slice bytes start bytes.length

/-- `Term::string` of a slice. -/
def sliceTerm (bytes : List UInt8) : Term := .domainValue stringSort bytes

/-- `to_usize` -/
def toUsize (env : Environment) (n : Int) : Option Nat :=
  if 0 ≤ n ∧ n ≤ env.usizeMax then some n.toNat else none

/-- The offsets at which the code points `start` and `stop` begin; scanning stops at `stop`. -/
def scanOffsets (start stop : Nat) : Nat → Option Nat → List Nat → Option Nat × Option Nat
  | _, first, [] => (first, none)
  | unit, first, offset :: offsets =>
    let first := if unit = start then some offset else first
    if unit = stop then (first, some offset) else scanOffsets start stop (unit + 1) first offsets

/-- The byte offsets of a range of code points, where it is one. -/
def rangeOffsets (env : Environment) (value : List Char) (start stop : Int) :
    Option Nat × Option Nat :=
  match toUsize env start, toUsize env stop with
  | some first, some last =>
    if 0 ≤ start ∧ start ≤ stop then
      scanOffsets first last 0 none (codePointOffsets 0 value ++ [(Utf8.encode value).length])
    else (none, none)
  | _, _ => (none, none)

/-- The value of an empty range inside a string that the seed chooses: the code point there. -/
def sampledRange (env : Environment) (bytes : List UInt8) (start stop : Nat) :
    HookResult (Option (List UInt8)) :=
  match env.samplingSeed with
  | none => .ok none
  | some seed =>
    if start = stop ∧ 0 < start ∧ stop < bytes.length ∧ samplingBit seed then do
      let rest ← sliceFrom bytes start
      let (next, _) ← orPanic (Utf8.next rest)
      return some (Utf8.encode [next])
    else .ok none

/-- `substring` -/
def substring (bigInts : BigInts) (env : Environment) (arguments : List Term) :
    HookResult BuiltinResult :=
  match arguments with
  | [value, start, stop] =>
    match readString value with
    | none => .ok .notApplicable
    | some value =>
      match readInt bigInts start, readInt bigInts stop with
      | some start, some stop =>
        let bytes := Utf8.encode value
        match rangeOffsets env value start stop with
        | (some startOffset, some stopOffset) => do
          match ← sampledRange env bytes startOffset stopOffset with
          | some next => return .value (sliceTerm next)
          | none => return .value (sliceTerm (← slice bytes startOffset stopOffset))
        | _ =>
          .ok (.unsupported (.unspecified
            ("substrString from " ++ String.ofList (Domain.printInt start) ++ " to " ++
              String.ofList (Domain.printInt stop) ++ " on a string of length " ++
              toString value.length ++ ", outside 0 <= start <= end <= length") false))
      | _, _ => .ok .notApplicable
  | _ => .error (.wrongArity "STRING.substr" 3 arguments.length)

end Slices

section Searches

/-- `saturating_i64` -/
def saturatingI64 (n : Int) : Int :=
  if n < -(i64Max : Int) - 1 then -(i64Max : Int) - 1
  else if (i64Max : Int) < n then i64Max
  else n

/-- The start of a search, from the start that was asked for. -/
def startUnit (env : Environment) (start : Int) : Nat :=
  let start := max (saturatingI64 start) 0
  if start ≤ env.usizeMax then start.toNat else env.usizeMax

/-- The positions that are tried, in their order. -/
def candidates (units start : Nat) (reverse : Bool) : List Nat :=
  if reverse then (List.range (min start units + 1)).reverse
  else List.range' (min start (units + 1)) (units + 1 - min start (units + 1))

/-- The first position where the needle occurs, with a poll at every 1024th. -/
def firstOccurrence (env : Environment) (haystack needle : List UInt8) (starts : List Nat) :
    Nat → List Nat → HookResult (Option Nat)
  | _, [] => .ok none
  | step, unit :: units =>
    if step % 1024 = 0 ∧ env.stopped step then .error .stop
    else do
      let offset ← orPanic starts[unit]?
      let rest ← sliceFrom haystack offset
      if needle <+: rest then return some unit
      else firstOccurrence env haystack needle starts (step + 1) units

/-- What a search answers for the position that it found. -/
def position : Option Nat → Int
  | some index => if index ≤ i64Max then index else -1
  | none => -1

/-- `search`: the code point index of the occurrence, or -1. -/
def search (env : Environment) (haystack needle : List Char) (start : Int) (reverse : Bool) :
    HookResult Int :=
  if reverse ∧ start < 0 then .ok (-1)
  else do
    let bytes := Utf8.encode haystack
    let offsets := codePointOffsets 0 haystack
    let units := offsets.length
    let found ← firstOccurrence env bytes (Utf8.encode needle) (offsets ++ [bytes.length]) 0
      (candidates units (startUnit env start) reverse)
    return position found

/-- The value that the seed chooses for a start outside the haystack. -/
def sampledSearch (env : Environment) (haystack needle : List Char) (start : Int)
    (reverse : Bool) : HookResult Int := do
  let picked ← search env haystack needle start reverse
  let clamped : Int :=
    if start < 0 then 0 else if haystack.length ≤ i64Max then haystack.length else i64Max
  return if picked = -1 then clamped else -1

/-- `find`, forward or in reverse. -/
def find (bigInts : BigInts) (env : Environment) (reverse : Bool) (arguments : List Term) :
    HookResult BuiltinResult :=
  let hook := if reverse then "STRING.rfind" else "STRING.find"
  match arguments with
  | [haystack, needle, start] =>
    match readString haystack, readString needle with
    | some haystack, some needle =>
      match readInt bigInts start with
      | none => .ok .notApplicable
      | some start => do
        let sampled := env.samplingSeed.any fun seed =>
          (start < 0 ∨ (haystack.length : Int) < start) && samplingBit seed
        let position ←
          if sampled then sampledSearch env haystack needle start reverse
          else search env haystack needle start reverse
        return .value (intTerm position)
    | _, _ => .ok .notApplicable
  | _ => .error (.wrongArity hook 3 arguments.length)

end Searches

section Replacements

/-- `empty_needle` -/
def emptyNeedle (operation : String) (needle : Term) : Option BuiltinResult :=
  if (readString needle).any List.isEmpty then
    some (.unsupported (.unspecified
      (operation ++ " with an empty needle: the domains.md equations give count = 1 + count")
      false))
  else none

/-- `count_all_occurrences` -/
def countAllOccurrences (arguments : List Term) : HookResult BuiltinResult :=
  match arguments with
  | [haystack, needle] =>
    match emptyNeedle "countAllOccurrences" needle with
    | some unspecified => .ok unspecified
    | none =>
      match readString haystack, readString needle with
      | some haystack, some needle =>
        .ok (.value (intTerm (Occurrences.count (Utf8.encode needle) (Utf8.encode haystack) : Nat)))
      | _, _ => .ok .notApplicable
  | _ => .error (.wrongArity "STRING.countAllOccurrences" 2 arguments.length)

/-- The bytes of a replacement, where they exceed the caller's bound. -/
def exceededBytes (env : Environment) (haystack needle replacement : List UInt8) :
    Option (Nat × Nat) := do
  let bound ← env.resultBound
  let count := Occurrences.count needle haystack
  let bytes := saturating
    (haystack.length - count * needle.length + saturating (count * replacement.length))
  if saturating (bytes * 8) > bound then some (bytes, bound) else none

/-- `replace_all` -/
def replaceAll (env : Environment) (arguments : List Term) : HookResult BuiltinResult :=
  match arguments with
  | [haystack, needle, replacement] =>
    match emptyNeedle "replaceAll" needle with
    | some unspecified => .ok unspecified
    | none =>
      match readString haystack, readString needle, readString replacement with
      | some haystack, some needle, some replacement =>
        let haystack := Utf8.encode haystack
        let needle := Utf8.encode needle
        let replacement := Utf8.encode replacement
        match exceededBytes env haystack needle replacement with
        | some (bytes, bound) =>
          .ok (tooLarge ("replaceAll gives a string of " ++ toString bytes ++
            " bytes, beyond the caller's bound of " ++ toString bound ++ " bits"))
        | none => .ok (.value (sliceTerm (Occurrences.replace needle replacement haystack)))
      | _, _, _ => .ok .notApplicable
  | _ => .error (.wrongArity "STRING.replaceAll" 3 arguments.length)

end Replacements

end KRust.Builtin.Search
