import GrantCache.Binary64
import GrantCache.Numeral

/-!
# Decimal forms of binary64 numbers

Reading: `ofDecimal` is the number nearest to a decimal, and `ofScaled?` is the reading that JSON
text gets, with one rounding for the digits and one for the power of ten.

Writing: `shortest` gives the fewest decimal digits that read back. A decimal reads back as `x`
when it lies between the midpoints on both sides of `x` (ends included when the significand is
even). If a grid of `n` digits has a point there, one of the two grid points around `x` is there,
so it is enough to try those two, for `n` from one up.
-/

namespace GrantCache.Binary64

/-! ### Reading -/

/-- The number nearest to `± digits * 10 ^ exponent`. Far outside the range of exponents the
answer is known without the power. -/
def ofDecimal (negative : Bool) (digits : Nat) (exponent : Int) : Binary64 :=
  let size := (Numeral.digits digits).length
  if digits = 0 ∨ exponent + size < -400 then ofMagnitude negative 0
  else if 400 < exponent + size then infinity negative
  else if 0 ≤ exponent then ofQuotient negative (digits * Nat.pow 10 exponent.toNat) 1
  else ofQuotient negative digits (Nat.pow 10 (-exponent).toNat)

def powerOfTen (n : Nat) : Binary64 := ofNat (Nat.pow 10 n)

/-- Divide by `10 ^ 308` up to `n` times, stopping at zero. -/
def shrink : Nat → Binary64 → Binary64
  | 0, x => x
  | n + 1, x => if x.magnitude = 0 then x else shrink n (x.div (powerOfTen 308))

/-- Digits that fit 64 bits are rounded first, and then scaled by powers of ten of at most
`10 ^ 308`, each time with a rounding. There is no number when the result would be infinite. -/
def ofScaled? (negative : Bool) (digits : Nat) (exponent : Int) : Option Binary64 :=
  -- The first of the roundings.
  let x := ofQuotient negative digits 1
  if 0 ≤ exponent then
    if exponent ≤ 308 then
      let y := x.mul (powerOfTen exponent.toNat)
      if y.isFinite then some y else none
    else if digits = 0 then some x else none
  else
    let n := (-exponent).toNat
    -- The last division is by what is left of the power, at least ten.
    let blocks := (n - 1) / 308
    let y := shrink blocks x
    if y.magnitude = 0 then some y else some (y.div (powerOfTen (n - 308 * blocks)))

/-! ### Writing -/

/-- The power of ten of the leading digit of `u / 2 ^ 1074`, for positive `u`. -/
def leadingExponent (u : Nat) : Int :=
  if unitsPerOne ≤ u then ((Numeral.digits (u / unitsPerOne)).length : Int) - 1
  else
    match (List.range 330).find? fun j => unitsPerOne ≤ u * Nat.pow 10 (j + 1) with
    | some j => -(j + 1 : Nat)
    | none => 0

structure Decimal where
  digits : Nat
  exponent : Int
deriving DecidableEq, Inhabited

def Decimal.quotient (d : Decimal) : Nat × Nat :=
  if 0 ≤ d.exponent then (d.digits * Nat.pow 10 d.exponent.toNat, 1)
  else (d.digits, Nat.pow 10 (-d.exponent).toNat)

/-- Whether a decimal reads back as the magnitude of the positive finite number `x`. -/
def reads (x : Binary64) (d : Decimal) : Bool :=
  let (num, den) := d.quotient
  let u := x.units
  let step := Nat.pow 2 x.scale
  -- Below a power of two the numbers are twice as close.
  let below := if x.significand = Nat.pow 2 52 ∧ 0 < x.scale then step else 2 * step
  let low := (4 * u - below) * den
  let high := (4 * u + 2 * step) * den
  let point := 4 * num * unitsPerOne
  -- A decimal halfway between two numbers reads as the even one.
  if x.significand % 2 = 0 then low ≤ point && point ≤ high else low < point && point < high

/-- The two decimals of `n` digits around the positive number `x`. -/
def neighbours (x : Binary64) (n : Nat) : Decimal × Decimal :=
  let exponent := leadingExponent x.units - (n : Int) + 1
  let d :=
    if 0 ≤ exponent then x.units / (unitsPerOne * Nat.pow 10 exponent.toNat)
    else x.units * Nat.pow 10 (-exponent).toNat / unitsPerOne
  (⟨d, exponent⟩, ⟨d + 1, exponent⟩)

/-- Of the two decimals around `x` the one that reads back; of two the nearer, a tie going to the
even digit. -/
def nearest? (x : Binary64) (n : Nat) : Option Decimal :=
  let (a, b) := neighbours x n
  match reads x a, reads x b with
  | false, false => none
  | true, false => some a
  | false, true => some b
  | true, true =>
    let (an, ad) := a.quotient
    let (bn, bd) := b.quotient
    let toA := (x.units * ad - an * unitsPerOne) * bd
    let toB := (bn * unitsPerOne - x.units * bd) * ad
    if toA < toB then some a else if toB < toA then some b
    else if a.digits % 2 = 0 then some a else some b

/-- The same decimal without trailing zeros. -/
def Decimal.trim (d : Decimal) : Decimal :=
  if d.digits ≠ 0 ∧ d.digits % 10 = 0 then Decimal.trim ⟨d.digits / 10, d.exponent + 1⟩ else d
termination_by d.digits
decreasing_by omega

/-- The fewest digits that read back as the magnitude of a finite number other than zero. The
neighbour above nine is ten, hence the trimming. -/
def shortest (x : Binary64) : Decimal :=
  (((List.range 17).findSome? fun n => nearest? x (n + 1)).getD ⟨0, 0⟩).trim

/-- The text of a finite number: positional with at least one digit on either side of the point
while the point is at most sixteen digits from the first digit and at most five places before it,
else with one digit before the point and an exponent. -/
def text (x : Binary64) : String :=
  let sign := if x.isNegative then "-" else ""
  if x.magnitude = 0 then sign ++ "0.0"
  else
    let d := shortest x
    let ds := Numeral.digits d.digits
    let point : Int := ds.length + d.exponent
    let body :=
      if 0 ≤ d.exponent ∧ point ≤ 16 then
        ds ++ List.replicate d.exponent.toNat '0' ++ ['.', '0']
      else if 0 < point ∧ point ≤ 16 then
        ds.take point.toNat ++ '.' :: ds.drop point.toNat
      else if -5 < point ∧ point ≤ 0 then
        '0' :: '.' :: List.replicate (-point).toNat '0' ++ ds
      else
        let exponent := Numeral.intDigits (point - 1)
        match ds with
        | [c] => c :: 'e' :: exponent
        | c :: rest => c :: '.' :: rest ++ 'e' :: exponent
        | [] => []
    sign ++ String.ofList body

example : shortest ⟨0x3ff8000000000000⟩ = ⟨15, -1⟩ := by decide +kernel
example : shortest (ofDecimal false 1 (-1)) = ⟨1, -1⟩ := by decide +kernel
example : shortest ⟨1⟩ = ⟨5, -324⟩ := by decide +kernel

end GrantCache.Binary64
