import Mathlib.Tactic

/-!
Polynomial hashes of sequences over a commutative ring. The hash of a sequence
is its value at a radix together with the power of the radix its length gives,
so that hashes of adjacent sequences combine without the sequences themselves.
-/

namespace KRust.Lib

/-- The value of a sequence read in a radix, and the radix to its length. -/
@[ext] structure PolyHash (R : Type*) where
  value : R
  power : R

namespace PolyHash

variable {R : Type*} [CommRing R]

instance : Mul (PolyHash R) :=
  ⟨fun left right => ⟨left.value * right.power + right.value, left.power * right.power⟩⟩

instance : One (PolyHash R) := ⟨⟨0, 1⟩⟩

@[simp] theorem value_mul (left right : PolyHash R) :
    (left * right).value = left.value * right.power + right.value := rfl

@[simp] theorem power_mul (left right : PolyHash R) :
    (left * right).power = left.power * right.power := rfl

@[simp] theorem value_one : (1 : PolyHash R).value = 0 := rfl

@[simp] theorem power_one : (1 : PolyHash R).power = 1 := rfl

/-- Combining hashes is associative, so every grouping of a sequence gives the
same hash. -/
instance : Monoid (PolyHash R) where
  mul_assoc a b c := by
    ext
    · simp only [value_mul, power_mul]
      ring
    · simp only [power_mul]
      ring
  one_mul a := by ext <;> simp
  mul_one a := by ext <;> simp

def ofDigit (radix digit : R) : PolyHash R := ⟨digit, radix⟩

def ofDigits (radix : R) (digits : List R) : PolyHash R :=
  (digits.map (ofDigit radix)).prod

@[simp] theorem ofDigits_nil (radix : R) : ofDigits radix [] = 1 := rfl

theorem ofDigits_append (radix : R) (xs ys : List R) :
    ofDigits radix (xs ++ ys) = ofDigits radix xs * ofDigits radix ys := by
  simp [ofDigits]

theorem ofDigits_power (radix : R) (xs : List R) :
    (ofDigits radix xs).power = radix ^ xs.length := by
  induction xs with
  | nil => simp
  | cons x xs ih =>
    have hcons : ofDigits radix (x :: xs) = ofDigit radix x * ofDigits radix xs := by
      simp [ofDigits]
    rw [hcons, power_mul, ih, List.length_cons, pow_succ']
    rfl

theorem ofDigits_value_append (radix : R) (xs ys : List R) :
    (ofDigits radix (xs ++ ys)).value =
      (ofDigits radix xs).value * radix ^ ys.length + (ofDigits radix ys).value := by
  rw [ofDigits_append, value_mul, ofDigits_power]

/-- Replacing the run `old` by the run `new` after the prefix `xs`: the share of
the prefix is that in the old value, shifted by the change of length. -/
theorem ofDigits_value_replace (radix inverse : R) (hinverse : inverse * radix = 1)
    (xs old new : List R) (tail : List R) :
    (ofDigits radix (xs ++ (new ++ tail))).value =
      ((ofDigits radix (xs ++ (old ++ tail))).value -
          (ofDigits radix (old ++ tail)).value) * radix ^ new.length *
        inverse ^ old.length + (ofDigits radix (new ++ tail)).value := by
  have hcancel : inverse ^ old.length * radix ^ old.length = 1 := by
    rw [← mul_pow, hinverse, one_pow]
  rw [ofDigits_value_append radix xs (new ++ tail),
    ofDigits_value_append radix xs (old ++ tail)]
  simp only [List.length_append, pow_add]
  linear_combination
    (-(ofDigits radix xs).value * radix ^ tail.length * radix ^ new.length) * hcancel

end PolyHash

end KRust.Lib
