import GrantCache.Binary64.Decimal
import GrantCache.Json

/-!
# Numbers and dates of TOML

A number is an integer of the signed 64-bit range, in one of four bases, or a binary64 number, which
has a fraction, an exponent or a name. Underscores may stand between digits. No setting is a date or
a time, so of these only the form is checked, and what follows them is given.
-/

namespace GrantCache.Toml

/-! ### Digits -/

/-- The digits at the start, with single underscores between them left out, and what follows. -/
def moreDigits (isDigit : Char → Bool) : List Char → List Char × List Char
  | '_' :: d :: rest =>
    if isDigit d then
      let (digits, after) := moreDigits isDigit rest
      (d :: digits, after)
    else ([], '_' :: d :: rest)
  | d :: rest =>
    if isDigit d then
      let (digits, after) := moreDigits isDigit rest
      (d :: digits, after)
    else ([], d :: rest)
  | [] => ([], [])

/-- Digits, at least one of them, and what follows. -/
def digits? (isDigit : Char → Bool) : List Char → Option (List Char × List Char)
  | d :: rest =>
    if isDigit d then
      let (digits, after) := moreDigits isDigit rest
      some (d :: digits, after)
    else none
  | [] => none

def sign : List Char → Bool × List Char
  | '+' :: rest => (false, rest)
  | '-' :: rest => (true, rest)
  | cs => (false, cs)

/-- The digits of a whole number, which has no needless zeros before it. -/
def whole? : List Char → Option (List Char × List Char)
  | '0' :: rest => some (['0'], rest)
  | cs => digits? Numeral.isDigit cs

/-! ### Numbers -/

def valueIn (base : Nat) (digits : List Char) : Nat :=
  digits.foldl (fun n c => base * n + (Numeral.hexValue? c).getD 0) 0

def isOctalDigit (c : Char) : Bool := 48 ≤ c.toNat && c.toNat ≤ 55

def isBinaryDigit (c : Char) : Bool := c = '0' || c = '1'

/-- An integer, if it is within the signed 64-bit range. -/
def ranged? (n : Int) : Option Json := (Json.int n).signed?.map .int

/-- The digits of an integer in a base, and what follows. -/
def based? (base : Nat) (isDigit : Char → Bool) (cs : List Char) : Option (Json × List Char) := do
  let (digits, rest) ← digits? isDigit cs
  return (← ranged? (valueIn base digits), rest)

/-- An integer, in base ten or with the mark of another base before it. -/
def integer? : List Char → Option (Json × List Char)
  | '0' :: 'x' :: rest => based? 16 Numeral.isHexDigit rest
  | '0' :: 'o' :: rest => based? 8 isOctalDigit rest
  | '0' :: 'b' :: rest => based? 2 isBinaryDigit rest
  | cs => do
    let (negative, cs) := sign cs
    let (digits, rest) ← whole? cs
    let n : Int := Numeral.value digits
    return (← ranged? (if negative then -n else n), rest)

/-- The digits after a point, if there is one. -/
def fraction? : List Char → Option (List Char × List Char)
  | '.' :: rest => digits? Numeral.isDigit rest
  | _ => none

/-- The exponent of a number, if there is one. -/
def exponent? : List Char → Option (Int × List Char)
  | e :: rest => do
    guard (e = 'e' || e = 'E')
    let (negative, rest) := sign rest
    let (digits, rest) ← digits? Numeral.isDigit rest
    let n : Int := Numeral.value digits
    return (if negative then -n else n, rest)
  | [] => none

/-- The number nearest to a decimal. One that is too great for a binary64 number is refused, one
that is too small becomes the negative infinity. -/
def nearest? (negative : Bool) (digits : List Char) (exponent : Int) : Option Json :=
  let x := Binary64.ofDecimal negative (Numeral.value digits) exponent
  -- Only the positive infinity is looked for.
  if x = Binary64.infinity false then none else some (.float x)

/-- A number with a fraction or an exponent, or one that is given by its name. -/
def float? (cs : List Char) : Option (Json × List Char) :=
  match sign cs with
  | (negative, 'i' :: 'n' :: 'f' :: rest) => some (.float (.infinity negative), rest)
  | (negative, 'n' :: 'a' :: 'n' :: rest) => some (.float (.nan negative), rest)
  | (negative, cs) => do
    let (digits, rest) ← whole? cs
    match fraction? rest with
    | some (decimals, rest) =>
      let (exponent, rest) := (exponent? rest).getD (0, rest)
      return (← nearest? negative (digits ++ decimals) (exponent - decimals.length), rest)
    | none =>
      let (exponent, rest) ← exponent? rest
      return (← nearest? negative digits exponent, rest)

/-! ### Dates and times -/

def pair? : List Char → Option (Nat × List Char)
  | a :: b :: rest =>
    if Numeral.isDigit a && Numeral.isDigit b then some (Numeral.value [a, b], rest) else none
  | _ => none

def after? (c : Char) : List Char → Option (List Char)
  | d :: rest => if c = d then some rest else none
  | [] => none

def daysIn (year month : Nat) : Nat :=
  if month = 2 then
    if year % 4 = 0 ∧ (year % 100 ≠ 0 ∨ year % 400 = 0) then 29 else 28
  else if month ∈ [4, 6, 9, 11] then 30
  else 31

/-- A date that there is in the calendar, of which only what follows it is given. -/
def date? (cs : List Char) : Option (List Char) := do
  let (century, cs) ← pair? cs
  let (year, cs) ← pair? cs
  let (month, cs) ← pair? (← after? '-' cs)
  let (day, cs) ← pair? (← after? '-' cs)
  guard (1 ≤ month ∧ month ≤ 12 ∧ 1 ≤ day ∧ day ≤ daysIn (100 * century + year) month)
  return cs

/-- A time of day, with a leap second at most. -/
def time? (cs : List Char) : Option (List Char) := do
  let (hour, cs) ← pair? cs
  let (minute, cs) ← pair? (← after? ':' cs)
  let (second, cs) ← pair? (← after? ':' cs)
  guard (hour ≤ 23 ∧ minute ≤ 59 ∧ second ≤ 60)
  match cs with
  | '.' :: d :: rest =>
    if Numeral.isDigit d then return rest.dropWhile Numeral.isDigit else return cs
  | _ => return cs

/-- What follows the distance of a place's time from the universal one. -/
def offset? : List Char → Option (List Char)
  | 'Z' :: rest | 'z' :: rest => some rest
  | c :: rest => do
    guard (c = '+' || c = '-')
    let (hour, cs) ← pair? rest
    let (minute, cs) ← pair? (← after? ':' cs)
    guard (hour ≤ 23 ∧ minute ≤ 59)
    return cs
  | [] => none

/-- What follows a date, a time, or both. -/
def moment? (cs : List Char) : Option (List Char) :=
  match date? cs with
  | some rest =>
    let timed := match rest with
      | c :: tail => if c = 'T' || c = 't' || c = ' ' then time? tail else none
      | [] => none
    match timed with
    | some rest => some ((offset? rest).getD rest)
    | none => some rest
  | none => time? cs

end GrantCache.Toml
