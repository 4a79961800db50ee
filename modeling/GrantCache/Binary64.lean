/-!
# Binary64 numbers

A number is kept as its 64-bit word, so that equality of numbers is equality of words and all
arithmetic is exact arithmetic on natural numbers followed by one rounding. The magnitude (the
word without its sign bit) is linear in the significand between two powers of two and increases
with the number it stands for, hence the order of finite numbers is the order of their words.

* `ofQuotient` rounds a quotient of naturals to the nearest number, ties to even;
* `mul` and `div` are the exact product and quotient, rounded once;
* `le` and `lt` compare as numbers: a NaN compares with nothing, both zeros are equal.
-/

namespace GrantCache

/-- A binary64 number, by its word: a sign, eleven bits of exponent, fifty-two of fraction. -/
structure Binary64 where
  word : UInt64
deriving DecidableEq, Inhabited

namespace Binary64

/-- The word without its sign bit. -/
def magnitude (x : Binary64) : Nat := x.word.toNat % Nat.pow 2 63

def isNegative (x : Binary64) : Bool := Nat.pow 2 63 ≤ x.word.toNat

/-- The magnitude of both infinities. -/
def infinityMagnitude : Nat := 0x7ff0000000000000

def isNaN (x : Binary64) : Bool := infinityMagnitude < x.magnitude

def isFinite (x : Binary64) : Bool := x.magnitude < infinityMagnitude

def ofMagnitude (negative : Bool) (m : Nat) : Binary64 :=
  ⟨UInt64.ofNat (if negative then Nat.pow 2 63 + m % Nat.pow 2 63 else m % Nat.pow 2 63)⟩

/-! ### Value of a finite number

A finite number is `± significand * 2 ^ scale / 2 ^ 1074`. -/

/-- The integral significand: the fraction, with the leading bit of a normal number. -/
def significand (x : Binary64) : Nat :=
  let fraction := x.magnitude % Nat.pow 2 52
  if x.magnitude < Nat.pow 2 52 then fraction else Nat.pow 2 52 + fraction

/-- How many times the least positive number, `2 ^ -1074`, goes into one. -/
def unitsPerOne : Nat := Nat.pow 2 1074

/-- How many doublings the unit of the significand is above the least positive number. -/
def scale (x : Binary64) : Nat := x.magnitude / Nat.pow 2 52 - 1

/-- The value of `|x|` as a multiple of `2 ^ -1074`. -/
def units (x : Binary64) : Nat := x.significand * Nat.pow 2 x.scale

/-! ### Rounding -/

/-- The quotient rounded to the nearest natural, a tie to the even one. -/
def roundQuotient (num den : Nat) : Nat :=
  let q := num / den
  let twice := 2 * (num % den)
  if twice < den then q else if den < twice then q + 1 else q + q % 2

/-- The magnitude nearest to `num / den`, a tie to the even significand. A significand that
rounds up to the next power of two carries into the exponent by itself, because magnitudes are
linear in it. -/
def magnitudeOfQuotient (num den : Nat) : Nat :=
  let scaled := num * unitsPerOne
  let exponent := Nat.log2 (scaled / den) - 52
  min (exponent * Nat.pow 2 52 + roundQuotient scaled (den * Nat.pow 2 exponent)) infinityMagnitude

/-- The number nearest to `± num / den`. -/
def ofQuotient (negative : Bool) (num den : Nat) : Binary64 :=
  ofMagnitude negative (magnitudeOfQuotient num den)

def ofNat (n : Nat) : Binary64 := ofQuotient false n 1

def ofInt (n : Int) : Binary64 := ofQuotient (n < 0) n.natAbs 1

def zero : Binary64 := ofMagnitude false 0

def one : Binary64 := ofNat 1

def half : Binary64 := ofQuotient false 1 2

def infinity (negative : Bool) : Binary64 := ofMagnitude negative infinityMagnitude

def nan (negative : Bool) : Binary64 := ofMagnitude negative 0x7ff8000000000000

/-- The product of the magnitudes, rounded; the sign is `x`'s. Both arguments are finite and `y`
is positive. -/
def mul (x y : Binary64) : Binary64 :=
  ofQuotient x.isNegative (x.units * y.units) (unitsPerOne * unitsPerOne)

/-- The quotient of the magnitudes, rounded; the sign is `x`'s. Both arguments are finite and `y`
is positive. -/
def div (x y : Binary64) : Binary64 :=
  ofQuotient x.isNegative x.units y.units

def neg (x : Binary64) : Binary64 := ofMagnitude (!x.isNegative) x.magnitude

/-! ### Order -/

/-- An integer that stands in the order of the finite numbers; both zeros have the same. -/
def rank (x : Binary64) : Int := if x.isNegative then -(x.magnitude : Int) else x.magnitude

/-- Whether `x` is at most `y`. A NaN compares with nothing. -/
def le (x y : Binary64) : Bool := !x.isNaN && !y.isNaN && x.rank ≤ y.rank

/-- Whether `x` is below `y`. A NaN compares with nothing. -/
def lt (x y : Binary64) : Bool := !x.isNaN && !y.isNaN && x.rank < y.rank

/-- The word in sixteen lower-case hexadecimal digits. -/
def hex (x : Binary64) : String :=
  let digits := Nat.toDigits 16 x.word.toNat
  String.ofList (List.replicate (16 - digits.length) '0' ++ digits)

/-! ### Small facts -/

@[simp] theorem roundQuotient_zero (den : Nat) : roundQuotient 0 den = 0 := by
  simp [roundQuotient]

@[simp] theorem magnitudeOfQuotient_zero (den : Nat) : magnitudeOfQuotient 0 den = 0 := by
  simp [magnitudeOfQuotient]

@[simp] theorem ofQuotient_zero (den : Nat) : ofQuotient false 0 den = zero := by
  simp [ofQuotient, zero]

@[simp] theorem units_zero : zero.units = 0 := by decide +kernel

@[simp] theorem isNegative_zero : zero.isNegative = false := by decide +kernel

theorem not_le_of_lt {x y : Binary64} (h : x.lt y = true) : y.le x = false := by
  simp only [lt, Bool.and_eq_true, decide_eq_true_eq] at h
  have above : ¬ y.rank ≤ x.rank := by omega
  simp [le, above]

example : half.word = 0x3fe0000000000000 := by decide +kernel
example : (ofQuotient false 1 3).word = 0x3fd5555555555555 := by decide +kernel
example : one.word = 0x3ff0000000000000 := by decide +kernel

end Binary64

end GrantCache
