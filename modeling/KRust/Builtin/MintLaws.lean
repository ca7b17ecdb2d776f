import KRust.Builtin.MintWords

/-!
The `MINT` hooks compute on the bit vectors of their width: what a hook answers is what the
operation of that width gives, and no operation that it leaves out changes an answer.
-/

namespace KRust.Builtin.Mint

open KRust.Kore KRust.Backend KRust.Lib
open KRust.Domain (decimal_of_digits isNumeral_of_decimal)

section Operations

variable {bigInts : BigInts} {env : Environment} {sort : KoreSort} {W : Nat}

theorem natAbs_add_le {a b : Int} {x y : Nat} (ha : a.natAbs ≤ x) (hb : b.natAbs ≤ y) :
    (a + b).natAbs ≤ 2 ^ (x.size + y.size) := by
  have hx : x < 2 ^ x.size := Nat.lt_size_self x
  have hy : y < 2 ^ y.size := Nat.lt_size_self y
  have hsum : (a + b).natAbs ≤ x + y := (Int.natAbs_add_le a b).trans (Nat.add_le_add ha hb)
  rw [pow_add]
  nlinarith

theorem le_pow_left {n x y : Nat} (h : n ≤ x) : n ≤ 2 ^ (x.size + y.size) :=
  (h.trans (Nat.lt_size_self x).le).trans (Nat.pow_le_pow_right (by decide) (Nat.le_add_right _ _))

theorem readPair_literals (hdoc : bigInts.Documented) (hsort : HasWidth sort W) (hook : String)
    (x y : BitVec W) :
    readPair bigInts hook [mintTerm sort x.toNat, mintTerm sort y.toNat] =
      .ok (some (word sort x, word sort y)) := by
  simp only [readPair, readMint_mintTerm hdoc hsort, word, if_true]

theorem onPair_literals (hdoc : bigInts.Documented) (hsort : HasWidth sort W) (hook : String)
    (apply : Word → Word → BuiltinResult) (x y : BitVec W) :
    onPair bigInts hook [mintTerm sort x.toNat, mintTerm sort y.toNat] apply =
      .ok (apply (word sort x) (word sort y)) := by
  rw [onPair, readPair_literals hdoc hsort]
  rfl

theorem wrapping_gives (hdoc : bigInts.Documented) (hsort : HasWidth sort W)
    (hook operation : String) {apply : Int → Int → Int} {x y z : BitVec W}
    (hheld : Held W (x.toNat.size + y.toNat.size))
    (hvalue : (apply x.toNat y.toNat).natAbs ≤ 2 ^ (x.toNat.size + y.toNat.size))
    (hz : BitVec.ofInt W (apply x.toNat y.toNat) = z) :
    Gives env sort (x.toNat.size + y.toNat.size)
      (wrapping bigInts env hook operation [mintTerm sort x.toNat, mintTerm sort y.toNat] apply)
      (.word z) := by
  rw [wrapping, onPair_literals hdoc hsort, limit_saturating, ← hz]
  exact wrapped_gives_of_le operation hheld hvalue

theorem wrappingUnary_gives (hdoc : bigInts.Documented) (hsort : HasWidth sort W)
    (hook operation : String) {apply : Int → Int} {x z : BitVec W} (hheld : Held W x.toNat.size)
    (hvalue : (apply x.toNat).natAbs ≤ 2 ^ x.toNat.size)
    (hz : BitVec.ofInt W (apply x.toNat) = z) :
    Gives env sort x.toNat.size
      (wrappingUnary bigInts env hook operation [mintTerm sort x.toNat] apply) (.word z) := by
  rw [wrappingUnary, readMint_mintTerm hdoc hsort, ← hz]
  exact wrapped_gives_of_le operation hheld hvalue

theorem ofInt_toNat (x : BitVec W) : BitVec.ofInt W x.toNat = x := by
  rw [BitVec.ofInt_natCast, BitVec.ofNat_toNat, BitVec.setWidth_eq]

theorem add_gives (hdoc : bigInts.Documented) (hsort : HasWidth sort W) (hook operation : String)
    {x y : BitVec W} (hheld : Held W (x.toNat.size + y.toNat.size)) :
    Gives env sort (x.toNat.size + y.toNat.size)
      (wrapping bigInts env hook operation [mintTerm sort x.toNat, mintTerm sort y.toNat]
        fun left right => left + right) (.word (x + y)) :=
  wrapping_gives hdoc hsort hook operation hheld (natAbs_add_le le_rfl le_rfl)
    (by rw [BitVec.ofInt_add, ofInt_toNat, ofInt_toNat])

theorem ofInt_sub (a b : Int) : BitVec.ofInt W (a - b) = BitVec.ofInt W a - BitVec.ofInt W b := by
  rw [sub_eq_add_neg, BitVec.ofInt_add, BitVec.ofInt_neg, BitVec.sub_eq_add_neg]

theorem sub_gives (hdoc : bigInts.Documented) (hsort : HasWidth sort W) (hook operation : String)
    {x y : BitVec W} (hheld : Held W (x.toNat.size + y.toNat.size)) :
    Gives env sort (x.toNat.size + y.toNat.size)
      (wrapping bigInts env hook operation [mintTerm sort x.toNat, mintTerm sort y.toNat]
        fun left right => left - right) (.word (x - y)) := by
  refine wrapping_gives hdoc hsort hook operation hheld ?_ ?_
  · rw [sub_eq_add_neg]
    exact natAbs_add_le le_rfl (Int.natAbs_neg _).le
  · rw [ofInt_sub, ofInt_toNat, ofInt_toNat]

theorem mul_gives (hdoc : bigInts.Documented) (hsort : HasWidth sort W) (hook operation : String)
    {x y : BitVec W} (hheld : Held W (x.toNat.size + y.toNat.size)) :
    Gives env sort (x.toNat.size + y.toNat.size)
      (wrapping bigInts env hook operation [mintTerm sort x.toNat, mintTerm sort y.toNat]
        fun left right => left * right) (.word (x * y)) := by
  refine wrapping_gives hdoc hsort hook operation hheld ?_ ?_
  · rw [Int.natAbs_mul, pow_add]
    exact Nat.mul_le_mul (Nat.lt_size_self _).le (Nat.lt_size_self _).le
  · rw [BitVec.ofInt_mul, ofInt_toNat, ofInt_toNat]

theorem neg_gives (hdoc : bigInts.Documented) (hsort : HasWidth sort W) (hook operation : String)
    {x : BitVec W} (hheld : Held W x.toNat.size) :
    Gives env sort x.toNat.size
      (wrappingUnary bigInts env hook operation [mintTerm sort x.toNat] fun value => -value)
      (.word (-x)) := by
  refine wrappingUnary_gives hdoc hsort hook operation hheld ?_ ?_
  · rw [Int.natAbs_neg]
    exact (Nat.lt_size_self _).le
  · rw [BitVec.ofInt_neg, ofInt_toNat]

theorem not_gives (hdoc : bigInts.Documented) (hsort : HasWidth sort W) (hook operation : String)
    {x : BitVec W} (hheld : Held W x.toNat.size) :
    Gives env sort x.toNat.size
      (wrappingUnary bigInts env hook operation [mintTerm sort x.toNat] fun value => -value - 1)
      (.word (~~~x)) := by
  refine wrappingUnary_gives hdoc hsort hook operation hheld ?_ ?_
  · have := Nat.lt_size_self x.toNat
    omega
  · rw [ofInt_sub, BitVec.ofInt_neg, ofInt_toNat, BitVec.not_eq_neg_add]
    rfl

theorem toNat_eq_zero_iff (x : BitVec W) : x.toNat = 0 ↔ x = 0 := by
  rw [← BitVec.toNat_inj]
  exact Iff.of_eq (congrArg _ BitVec.toNat_zero.symm)

theorem unsignedDivision_gives (hdoc : bigInts.Documented) (hsort : HasWidth sort W)
    (hook : String) {apply : Nat → Nat → Nat} {x y z : BitVec W} (bits : Nat)
    (hz : apply x.toNat y.toNat = z.toNat) :
    Gives env sort bits
      (unsignedDivision bigInts hook [mintTerm sort x.toNat, mintTerm sort y.toNat] apply)
      (if y = 0 then .undefined else .word z) := by
  have hzero : y.toNat = 0 ↔ y = 0 := toNat_eq_zero_iff y
  rw [unsignedDivision, onPair_literals hdoc hsort]
  by_cases hy : y = 0
  · rw [if_pos hy]
    simp only [word, hzero.mpr hy, if_true]
    rfl
  · rw [if_neg hy]
    simp only [word, if_neg (mt hzero.mp hy), hz]
    exact .inl rfl

theorem signedDivision_gives (hdoc : bigInts.Documented) (hsort : HasWidth sort W)
    (hook operation : String) {apply : Int → Int → Int} {x y z : BitVec W}
    (hheld : Held W (x.toNat.size + y.toNat.size))
    (hvalue : (apply x.toInt y.toInt).natAbs ≤ x.toInt.natAbs)
    (hz : BitVec.ofInt W (apply x.toInt y.toInt) = z) :
    Gives env sort (x.toNat.size + y.toNat.size)
      (signedDivision bigInts env hook operation [mintTerm sort x.toNat, mintTerm sort y.toNat]
        apply)
      (if y = 0 then .undefined else .word z) := by
  have hzero : y.toNat = 0 ↔ y = 0 := toNat_eq_zero_iff y
  rw [signedDivision, onPair_literals hdoc hsort]
  by_cases hy : y = 0
  · rw [if_pos hy]
    simp only [word, hzero.mpr hy, if_true]
    rfl
  · have hx : Held W x.toNat.size := fun hlarge => (Nat.le_add_right _ _).trans (hheld hlarge)
    have hy' : Held W y.toNat.size := fun hlarge => (Nat.le_add_left _ _).trans (hheld hlarge)
    rw [if_neg hy, signed_word sort hx, signed_word sort hy', ← hz]
    simp only [word, if_neg (mt hzero.mp hy), limit_saturating]
    exact wrapped_gives_of_le operation hheld
      (le_pow_left (hvalue.trans (natAbs_toInt_le x)))

end Operations

section Shifts

variable {bigInts : BigInts} {env : Environment} {sort : KoreSort} {W : Nat}

theorem widthValue_word (hdoc : bigInts.Documented) (hsort : HasWidth sort W) (x : BitVec W) :
    (word sort x).widthValue bigInts = .ok W := by
  obtain ⟨digits, hdigits, hvalue, rfl⟩ := hsort
  simp only [Word.widthValue, word]
  rcases Nat.lt_or_ge W (2 ^ 64) with hsmall | hlarge
  · rw [toU64_of_lt hsmall]
  · rw [toU64_of_le hlarge, mintWidthDigits_machineSort hdigits, Option.bind_some,
      hdoc.parseNat _ hdigits, hvalue]
    rfl

/-- A shift to the left keeps the bits that stay below the width. -/
theorem toNat_shiftLeft_of_lt {x : BitVec W} {amount : Nat} (h : amount < W) :
    (x <<< amount).toNat = x.toNat % 2 ^ (W - amount) * 2 ^ amount := by
  have hpow : 2 ^ W = 2 ^ (W - amount) * 2 ^ amount := by
    rw [← pow_add, Nat.sub_add_cancel h.le]
  rw [BitVec.toNat_shiftLeft, Nat.shiftLeft_eq, hpow, Nat.mul_mod_mul_right]

theorem shiftedLeft_gives {x y : BitVec W} (hheld : Held W (x.toNat.size + y.toNat.size)) :
    Gives env sort (x.toNat.size + y.toNat.size)
      (.ok (shiftedLeft env (word sort x) (word sort y) W)) (.word (x <<< y)) := by
  simp only [shiftedLeft, word, limit_saturating]
  rw [BitVec.shiftLeft_eq']
  by_cases hout : W ≤ y.toNat
  · rw [if_pos hout, BitVec.shiftLeft_eq_zero hout]
    exact .inl (by rw [BitVec.toNat_zero])
  · have hamount : y.toNat < W := not_le.mp hout
    have hkept : reduced x.toNat (toU64 (W - y.toNat)) = x.toNat % 2 ^ (W - y.toNat) := by
      apply reduced_eq
      intro hroom
      have hx : Held W x.toNat.size := fun hlarge => (Nat.le_add_right _ _).trans (hheld hlarge)
      exact (hx (hroom.trans (Nat.sub_le _ _))).trans ((Nat.sub_le _ _).trans hroom)
    have hshift := toNat_shiftLeft_of_lt (x := x) hamount
    rw [if_neg hout, hkept]
    by_cases hzero : x.toNat % 2 ^ (W - y.toNat) = 0
    · rw [if_pos hzero]
      rw [hzero, Nat.zero_mul] at hshift
      exact .inl (by rw [hshift])
    · rw [if_neg hzero]
      have hsize : (x <<< y.toNat).toNat.size =
          (x.toNat % 2 ^ (W - y.toNat)).size + y.toNat := by
        rw [hshift, ← Nat.shiftLeft_eq, Nat.size_shiftLeft hzero]
      have hlimit := limit_le env (x.toNat.size + y.toNat.size)
      split
      · rename_i hrefused
        refine .inr ⟨?_, _, rfl⟩
        rw [hsize]
        rcases Nat.lt_or_ge y.toNat (2 ^ 64) with hsmall | hlarge
        · rw [toU64_of_lt hsmall, Option.filter_eq_none_iff] at hrefused
          have hwide : ¬ min ((x.toNat % 2 ^ (W - y.toNat)).size + y.toNat) u64Max ≤
              limit env (x.toNat.size + y.toNat.size) :=
            fun hle => hrefused y.toNat rfl (decide_eq_true hle)
          omega
        · have hword : u64Max < y.toNat := Nat.lt_of_lt_of_le (by decide) hlarge
          omega
      · rename_i shift hgiven
        obtain ⟨hshifted, -⟩ := Option.filter_eq_some_iff.mp hgiven
        have hword : y.toNat = shift := by
          unfold toU64 at hshifted
          split at hshifted
          · exact Option.some.inj hshifted
          · cases hshifted
        exact .inl (by rw [hshift, hword])

theorem shiftLeft_gives (hdoc : bigInts.Documented) (hsort : HasWidth sort W) {x y : BitVec W}
    (hheld : Held W (x.toNat.size + y.toNat.size)) :
    Gives env sort (x.toNat.size + y.toNat.size)
      (shiftLeft bigInts env [mintTerm sort x.toNat, mintTerm sort y.toNat])
      (.word (x <<< y)) := by
  have heq : shiftLeft bigInts env [mintTerm sort x.toNat, mintTerm sort y.toNat] =
      .ok (shiftedLeft env (word sort x) (word sort y) W) := by
    rw [shiftLeft, readPair_literals hdoc hsort]
    change (do
      let width ← (word sort x).widthValue bigInts
      return shiftedLeft env (word sort x) (word sort y) width : HookResult BuiltinResult) = _
    rw [widthValue_word hdoc hsort]
    rfl
  rw [heq]
  exact shiftedLeft_gives hheld

/-- An amount of the reading's bits or more leaves the sign alone. -/
theorem shiftedRight_eq {read : Int} (h : read.natAbs.size ≤ u64Max) (amount : Nat) :
    shiftedRight read amount = read >>> amount := by
  have hout : read.natAbs.size ≤ amount → (if read < 0 then -1 else 0) = read >>> amount := by
    intro hle
    have hlt : read.natAbs < 2 ^ amount := Nat.size_le.mp hle
    have hcast : ((2 ^ amount : Nat) : Int) = 2 ^ amount := by push_cast; rfl
    rw [Int.shiftRight_eq_div_pow]
    split
    · rename_i hneg
      have hdiv : read / ((2 ^ amount : Nat) : Int) = -1 :=
        (Int.ediv_eq_iff_of_pos (by positivity)).mpr ⟨by omega, by omega⟩
      exact hdiv.symm
    · rename_i hnonneg
      exact (Int.ediv_eq_zero_of_lt (not_lt.mp hnonneg) (by omega)).symm
  unfold shiftedRight
  rcases Nat.lt_or_ge amount (2 ^ 64) with hsmall | hlarge
  · rw [toU64_of_lt hsmall]
    simp only
    split
    · rfl
    · rename_i hle
      exact hout (not_lt.mp hle)
  · rw [toU64_of_le hlarge]
    exact hout (h.trans ((Nat.sub_le _ _).trans hlarge))

theorem natAbs_shiftRight_le (read : Int) (amount : Nat) :
    (read >>> amount).natAbs ≤ read.natAbs := by
  rw [Int.shiftRight_eq_div_pow]
  exact Int.natAbs_ediv_le_natAbs _ _

theorem shiftRight_gives (hdoc : bigInts.Documented) (hsort : HasWidth sort W)
    (hook operation : String) (reading : Reading) {x y z : BitVec W}
    (hheld : Held W (x.toNat.size + y.toNat.size))
    (hread : (reading.read (word sort x)).natAbs ≤ x.toNat)
    (hz : BitVec.ofInt W (reading.read (word sort x) >>> y.toNat) = z) :
    Gives env sort (x.toNat.size + y.toNat.size)
      (shiftRight bigInts env hook operation [mintTerm sort x.toNat, mintTerm sort y.toNat] reading)
      (.word z) := by
  have hx : Held W x.toNat.size := fun hlarge => (Nat.le_add_right _ _).trans (hheld hlarge)
  have hsize : (reading.read (word sort x)).natAbs.size ≤ u64Max :=
    (Nat.size_le_size hread).trans (size_le_u64Max hx)
  rw [shiftRight, onPair_literals hdoc hsort, ← hz]
  simp only [word, limit_saturating]
  rw [← word, shiftedRight_eq hsize]
  exact wrapped_gives_of_le operation hheld
    (le_pow_left ((natAbs_shiftRight_le _ _).trans hread))

end Shifts

section Answers

variable {bigInts : BigInts} {env : Environment} {sort : KoreSort} {W : Nat}

theorem order_gives (hdoc : bigInts.Documented) (hsort : HasWidth sort W) (hook : String)
    (reading : Reading) {holds : Ordering → Bool} {x y : BitVec W} {answer : Bool} (bits : Nat)
    (hanswer :
      holds (compare (reading.read (word sort x)) (reading.read (word sort y))) = answer) :
    Gives env sort bits
      (order bigInts hook [mintTerm sort x.toNat, mintTerm sort y.toNat] reading holds)
      (.bool answer : Meaning W) := by
  rw [order, onPair_literals hdoc hsort, ← hanswer]
  rfl

theorem compare_holds (a b : Int) :
    (compare a b).isLT = decide (a < b) ∧ (compare a b).isLE = decide (a ≤ b) ∧
      (compare a b).isGT = decide (b < a) ∧ (compare a b).isGE = decide (b ≤ a) := by
  rcases lt_trichotomy a b with hlt | heq | hgt
  · rw [compare_lt_iff_lt.mpr hlt]
    simp [hlt, hlt.le, hlt.not_gt, hlt.not_ge]
  · rw [compare_eq_iff_eq.mpr heq]
    simp [heq]
  · rw [compare_gt_iff_gt.mpr hgt]
    simp [hgt, hgt.le, hgt.not_gt, hgt.not_ge]

theorem bitwise_gives (hdoc : bigInts.Documented) (hsort : HasWidth sort W) (hook : String)
    {apply : Nat → Nat → Nat} {x y z : BitVec W} (bits : Nat)
    (hz : apply x.toNat y.toNat = z.toNat) :
    Gives env sort bits
      (bitwise bigInts hook [mintTerm sort x.toNat, mintTerm sort y.toNat] apply) (.word z) := by
  rw [bitwise, onPair_literals hdoc hsort]
  simp only [word, hz]
  exact .inl rfl

theorem equality_gives [DecidableEq Term] (env : Environment) (hdoc : bigInts.Documented) (hsort : HasWidth sort W)
    (hook : String) (x y : BitVec W) (equal : Bool) (bits : Nat) :
    Gives env sort bits
      (equality bigInts hook [mintTerm sort x.toNat, mintTerm sort y.toNat] equal)
      (.bool (decide (x = y) == equal) : Meaning W) := by
  have hresidue : decide (x.toNat = y.toNat) = decide (x = y) :=
    decide_eq_decide.mpr BitVec.toNat_inj
  rw [equality, readPair_literals hdoc hsort, ← hresidue]
  rfl

theorem bitwidth_gives (hdoc : bigInts.Documented) (hsort : HasWidth sort W) (residue : Nat)
    (bits : Nat) (total : Bool) :
    Gives env sort bits (bitwidth bigInts [mintTerm sort residue] total)
      (.int W : Meaning W) := by
  obtain ⟨digits, hdigits, hvalue, rfl⟩ := hsort
  have hterm : (mintTerm (machineSort digits) residue).sort = machineSort digits := rfl
  change bitwidth bigInts _ total = _
  simp only [bitwidth, hterm, mintWidth_machineSort hdigits, hvalue]
  rcases Nat.lt_or_ge W (2 ^ 64) with hsmall | hlarge
  · rw [if_pos hsmall]
  · obtain ⟨hnumeral, -, hnumber⟩ := isNumeral_of_decimal (decimal_of_digits hdigits)
    rw [if_neg (not_lt.mpr hlarge)]
    simp only [mintWidthDigits_machineSort hdigits, Option.bind_some, hdoc.parse, if_pos hnumeral,
      hnumber, hvalue]
    rfl

theorem reading_gives (hdoc : bigInts.Documented) (hsort : HasWidth sort W) (hook : String)
    {read : Word → Int} {x : BitVec W} {n : Int} (bits : Nat) (hread : read (word sort x) = n) :
    Gives env sort bits (reading bigInts hook [mintTerm sort x.toNat] read)
      (.int n : Meaning W) := by
  rw [reading, readMint_mintTerm hdoc hsort, ← hread]
  rfl

theorem integer_gives (hdoc : bigInts.Documented) (hsort : HasWidth sort W) {n : Int}
    (hheld : Held W n.natAbs.size) (total : Bool) :
    Gives env sort n.natAbs.size (integer bigInts env [intTerm n] (some sort) total)
      (.word (BitVec.ofInt W n)) := by
  obtain ⟨digits, hdigits, hvalue, rfl⟩ := hsort
  have hvalue' : n.natAbs ≤ 2 ^ n.natAbs.size := (Nat.lt_size_self _).le
  have hwrapped : Gives env (machineSort digits) n.natAbs.size (.ok (wrapped
      ("Int2MInt(" ++ describeInt n ++ ")") (machineSort digits) (toU64 W) n
        (limit env n.natAbs.size))) (.word (BitVec.ofInt W n)) :=
    wrapped_gives_of_le _ hheld hvalue'
  simp only [integer, mintWidth_machineSort hdigits, hvalue, hdoc.readInt_intTerm]
  rcases Nat.lt_or_ge W (2 ^ 64) with hsmall | hlarge
  · rw [toU64_of_lt hsmall] at hwrapped
    rw [if_pos hsmall]
    exact hwrapped
  · rw [toU64_of_le hlarge] at hwrapped
    rw [if_neg (not_lt.mpr hlarge)]
    exact hwrapped

end Answers

section Hooks

variable (bigInts : BigInts) (env : Environment)

/-- What the operations of the width give for one pattern. -/
def unaryMeanings (W : Nat) : List (String × (BitVec W → Meaning W)) :=
  [("MINT.bitwidth", fun _ => .int W),
   ("MINT.svalue", fun x => .int x.toInt),
   ("MINT.uvalue", fun x => .int x.toNat),
   ("MINT.neg", fun x => .word (-x)),
   ("MINT.not", fun x => .word (~~~x))]

/-- What the operations of the width give for two patterns; the divisions by zero, which the
operations on bit vectors have values for, are left undefined. -/
def binaryMeanings (W : Nat) : List (String × (BitVec W → BitVec W → Meaning W)) :=
  [("MINT.add", fun x y => .word (x + y)),
   ("MINT.sub", fun x y => .word (x - y)),
   ("MINT.mul", fun x y => .word (x * y)),
   ("MINT.and", fun x y => .word (x &&& y)),
   ("MINT.or", fun x y => .word (x ||| y)),
   ("MINT.xor", fun x y => .word (x ^^^ y)),
   ("MINT.eq", fun x y => .bool (x = y)),
   ("MINT.ne", fun x y => .bool (x ≠ y)),
   ("MINT.ult", fun x y => .bool (x.ult y)),
   ("MINT.ule", fun x y => .bool (x.ule y)),
   ("MINT.ugt", fun x y => .bool (y.ult x)),
   ("MINT.uge", fun x y => .bool (y.ule x)),
   ("MINT.slt", fun x y => .bool (x.slt y)),
   ("MINT.sle", fun x y => .bool (x.sle y)),
   ("MINT.sgt", fun x y => .bool (y.slt x)),
   ("MINT.sge", fun x y => .bool (y.sle x)),
   ("MINT.udiv", fun x y => if y = 0 then .undefined else .word (x.udiv y)),
   ("MINT.urem", fun x y => if y = 0 then .undefined else .word (x.umod y)),
   ("MINT.sdiv", fun x y => if y = 0 then .undefined else .word (x.sdiv y)),
   ("MINT.srem", fun x y => if y = 0 then .undefined else .word (x.srem y)),
   ("MINT.shl", fun x y => .word (x <<< y)),
   ("MINT.lshr", fun x y => .word (x >>> y)),
   ("MINT.ashr", fun x y => .word (x.sshiftRight' y))]

variable {bigInts} {sort : KoreSort} {W : Nat} [DecidableEq Term]

theorem unary_gives (hdoc : bigInts.Documented) (hsort : HasWidth sort W) {x : BitVec W}
    (hheld : Held W x.toNat.size) (resultSort : Option KoreSort) (total : Bool) :
    ∀ entry ∈ unaryMeanings W,
      Gives env sort x.toNat.size
        (evaluate bigInts env entry.1 [mintTerm sort x.toNat] resultSort total) (entry.2 x) := by
  simp only [unaryMeanings, List.forall_mem_cons, List.not_mem_nil, false_implies, implies_true,
    and_true]
  refine ⟨?_, ?_, ?_, ?_, ?_⟩
  · exact bitwidth_gives hdoc hsort _ _ total
  · exact reading_gives hdoc hsort "MINT.svalue" _ (signed_word sort hheld)
  · exact reading_gives hdoc hsort "MINT.uvalue" _ rfl
  · exact neg_gives hdoc hsort "MINT.neg" _ hheld
  · exact not_gives hdoc hsort "MINT.not" _ hheld

theorem binary_gives (hdoc : bigInts.Documented) (hsort : HasWidth sort W) {x y : BitVec W}
    (hheld : Held W (x.toNat.size + y.toNat.size)) (resultSort : Option KoreSort)
    (total : Bool) :
    ∀ entry ∈ binaryMeanings W,
      Gives env sort (x.toNat.size + y.toNat.size)
        (evaluate bigInts env entry.1 [mintTerm sort x.toNat, mintTerm sort y.toNat] resultSort
          total) (entry.2 x y) := by
  have hx : (word sort x).signed = x.toInt :=
    signed_word sort fun hlarge => (Nat.le_add_right _ _).trans (hheld hlarge)
  have hy : (word sort y).signed = y.toInt :=
    signed_word sort fun hlarge => (Nat.le_add_left _ _).trans (hheld hlarge)
  have hunsigned := compare_holds x.toNat y.toNat
  have hsigned := compare_holds x.toInt y.toInt
  rw [← hx, ← hy] at hsigned
  simp only [binaryMeanings, List.forall_mem_cons, List.not_mem_nil, false_implies, implies_true,
    and_true]
  refine ⟨?_, ?_, ?_, ?_, ?_, ?_, ?_, ?_, ?_, ?_, ?_, ?_, ?_, ?_, ?_, ?_, ?_, ?_, ?_, ?_, ?_, ?_,
    ?_⟩
  · exact add_gives hdoc hsort _ _ hheld
  · exact sub_gives hdoc hsort _ _ hheld
  · exact mul_gives hdoc hsort _ _ hheld
  · exact bitwise_gives hdoc hsort _ _ (BitVec.toNat_and x y).symm
  · exact bitwise_gives hdoc hsort _ _ (BitVec.toNat_or x y).symm
  · exact bitwise_gives hdoc hsort _ _ (BitVec.toNat_xor x y).symm
  · have h := equality_gives env hdoc hsort "MINT.eq" x y true
      (x.toNat.size + y.toNat.size)
    rwa [beq_true] at h
  · have h := equality_gives env hdoc hsort "MINT.ne" x y false
      (x.toNat.size + y.toNat.size)
    rwa [beq_false, ← decide_not] at h
  · exact order_gives hdoc hsort _ .unsigned _ (hunsigned.1.trans (by simp [BitVec.ult_eq_decide]))
  · exact order_gives hdoc hsort _ .unsigned _ (hunsigned.2.1.trans (by simp [BitVec.ule_eq_decide]))
  · exact order_gives hdoc hsort _ .unsigned _
      (hunsigned.2.2.1.trans (by simp [BitVec.ult_eq_decide]))
  · exact order_gives hdoc hsort _ .unsigned _
      (hunsigned.2.2.2.trans (by simp [BitVec.ule_eq_decide]))
  · exact order_gives hdoc hsort _ .signed _
      (hsigned.1.trans (by rw [hx, hy, BitVec.slt_eq_decide]))
  · exact order_gives hdoc hsort _ .signed _
      (hsigned.2.1.trans (by rw [hx, hy, BitVec.sle_eq_decide]))
  · exact order_gives hdoc hsort _ .signed _
      (hsigned.2.2.1.trans (by rw [hx, hy, BitVec.slt_eq_decide]))
  · exact order_gives hdoc hsort _ .signed _
      (hsigned.2.2.2.trans (by rw [hx, hy, BitVec.sle_eq_decide]))
  · exact unsignedDivision_gives hdoc hsort _ _ BitVec.toNat_udiv.symm
  · exact unsignedDivision_gives hdoc hsort _ _ BitVec.toNat_umod.symm
  · refine signedDivision_gives hdoc hsort _ _ hheld (Int.natAbs_tdiv_le_natAbs _ _) ?_
    apply BitVec.eq_of_toInt_eq
    rw [BitVec.toInt_ofInt, BitVec.toInt_sdiv]
  · refine signedDivision_gives hdoc hsort _ _ hheld ?_ ?_
    · rw [Int.natAbs_tmod]
      exact Nat.mod_le _ _
    · rw [← BitVec.toInt_srem, BitVec.ofInt_toInt]
  · exact shiftLeft_gives hdoc hsort hheld
  · refine shiftRight_gives hdoc hsort _ _ .unsigned hheld le_rfl ?_
    change BitVec.ofInt W (((x.toNat >>> y.toNat : Nat)) : Int) = _
    rw [← BitVec.toNat_ushiftRight, ofInt_toNat, BitVec.ushiftRight_eq']
  · refine shiftRight_gives hdoc hsort _ _ .signed hheld ?_ ?_
    · exact (congrArg Int.natAbs hx).trans_le (natAbs_toInt_le x)
    · change BitVec.ofInt W ((word sort x).signed >>> y.toNat) = _
      rw [hx, ← BitVec.toInt_sshiftRight', BitVec.ofInt_toInt]

/-- Every hook answers with what the operation of its width gives, at every width: with a
pattern, unless that pattern is of more bits than the bound, or with a number or a truth value;
the divisions by zero it leaves undefined. -/
theorem hooks_compute_bit_vectors (hdoc : bigInts.Documented) (env : Environment)
    (hsort : HasWidth sort W) (total : Bool) :
    (∀ n : Int, Held W n.natAbs.size →
      Gives env sort n.natAbs.size
        (evaluate bigInts env "MINT.integer" [intTerm n] (some sort) total)
        (.word (BitVec.ofInt W n))) ∧
    (∀ x : BitVec W, Held W x.toNat.size → ∀ resultSort, ∀ entry ∈ unaryMeanings W,
      Gives env sort x.toNat.size
        (evaluate bigInts env entry.1 [mintTerm sort x.toNat] resultSort total) (entry.2 x)) ∧
    ∀ x y : BitVec W, Held W (x.toNat.size + y.toNat.size) →
      ∀ resultSort, ∀ entry ∈ binaryMeanings W,
        Gives env sort (x.toNat.size + y.toNat.size)
          (evaluate bigInts env entry.1 [mintTerm sort x.toNat, mintTerm sort y.toNat] resultSort
            total) (entry.2 x y) :=
  ⟨fun _ hheld => integer_gives hdoc hsort hheld total,
    fun _ hheld resultSort => unary_gives env hdoc hsort hheld resultSort total,
    fun _ _ hheld resultSort => binary_gives env hdoc hsort hheld resultSort total⟩

end Hooks

/-- The least number of eight bits divided by -1, and -1 as a pattern of eight bits. -/
theorem hooks_compute_bit_vectors_eight :
    Gives unbounded (machineSort ['8']) 1
        (@evaluate schoolbook unbounded (Classical.decEq Term) "MINT.integer" [intTerm (-1)]
          (some (machineSort ['8'])) true) (.word 255#8) ∧
      Gives unbounded (machineSort ['8']) 1
        (@evaluate schoolbook unbounded (Classical.decEq Term) "MINT.not"
          [mintTerm (machineSort ['8']) 1] none true) (.word 254#8) ∧
      Gives unbounded (machineSort ['8']) 16
        (@evaluate schoolbook unbounded (Classical.decEq Term) "MINT.sdiv"
          [mintTerm (machineSort ['8']) 128, mintTerm (machineSort ['8']) 255] none false)
        (.word 128#8) := by
  have hsort : HasWidth (machineSort ['8']) 8 := ⟨['8'], by decide, by decide, rfl⟩
  have hnarrow (bits : Nat) : Held 8 bits := fun hlarge => absurd hlarge (by decide)
  have hhooks := fun total => @hooks_compute_bit_vectors schoolbook (machineSort ['8']) 8
    (Classical.decEq Term) schoolbook_documented unbounded hsort total
  refine ⟨?_, ?_, ?_⟩
  · exact (hhooks true).1 (-1) (hnarrow _)
  · exact (hhooks true).2.1 1#8 (hnarrow _) none ("MINT.not", fun x => .word (~~~x))
      (by simp [unaryMeanings])
  · have hdiv := (hhooks false).2.2 128#8 255#8 (hnarrow _) none
      ("MINT.sdiv", fun x y => if y = 0 then .undefined else .word (x.sdiv y))
      (by simp [binaryMeanings])
    have hvalue : (if (255#8 : BitVec 8) = 0 then (.undefined : Meaning 8)
        else .word ((128#8).sdiv 255#8)) = .word 128#8 := by
      rw [if_neg (by decide), show (128#8).sdiv 255#8 = 128#8 by decide]
    dsimp only at hdiv
    rw [hvalue] at hdiv
    exact hdiv

end KRust.Builtin.Mint
