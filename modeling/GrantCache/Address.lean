import GrantCache.Numeral

/-!
# Socket addresses

The text forms of an address with a port: four decimal numbers with points between them, or groups
of hexadecimal digits with colons between them, in brackets. Only the form is of interest here, so
every function gives what follows the form it looks for.
-/

namespace GrantCache.Address

def after? (c : Char) : List Char → Option (List Char)
  | d :: rest => if c = d then some rest else none
  | [] => none

/-- What follows a decimal number of at most `limit`. -/
def decimal? (limit : Nat) (cs : List Char) : Option (List Char) :=
  let digits := cs.takeWhile Numeral.isDigit
  if digits.isEmpty || limit < Numeral.value digits then none
  else some (cs.dropWhile Numeral.isDigit)

/-- What follows a number of at most 255 without needless zeros. -/
def octet? (cs : List Char) : Option (List Char) :=
  let digits := cs.takeWhile Numeral.isDigit
  if 3 < digits.length || (digits.head? = some '0' && 1 < digits.length) then none
  else decimal? 255 cs

/-- What follows four numbers with points between them. -/
def fourOctets? (cs : List Char) : Option (List Char) := do
  let cs ← octet? (← after? '.' (← octet? cs))
  octet? (← after? '.' (← octet? (← after? '.' cs)))

/-- What follows a group of up to four hexadecimal digits. -/
def group? (cs : List Char) : Option (List Char) :=
  let digits := cs.takeWhile Numeral.isHexDigit
  if digits.isEmpty || 4 < digits.length then none else some (cs.dropWhile Numeral.isHexDigit)

/-- As many groups as there are, but at most `room`, with colons between them; the last two may be
given as four decimal numbers. How many groups there were, whether they ended that way, and what
follows. -/
def groups (first : Bool) : Nat → List Char → Nat × Bool × List Char
  | 0, cs => (0, false, cs)
  | room + 1, cs =>
    let start? := if first then some cs else after? ':' cs
    -- Four decimal numbers take the room of two groups.
    match if room = 0 then none else start?.bind fourOctets? with
    | some rest => (2, true, rest)
    | none =>
      match start?.bind group? with
      | some rest =>
        let (count, ended, rest) := groups false room rest
        (count + 1, ended, rest)
      | none => (0, false, cs)

/-- What follows eight groups, some of which may be left out between two colons. -/
def eightGroups? (cs : List Char) : Option (List Char) :=
  match groups true 8 cs with
  | (8, _, rest) => some rest
  | (_, true, _) => none
  -- The gap stands for one group at least.
  | (count, false, rest) => do
    let rest ← after? ':' (← after? ':' rest)
    return (groups true (7 - count) rest).2.2

/-- What follows the zone of an address, if one is given. -/
def zone? (cs : List Char) : Option (List Char) :=
  match cs with
  | '%' :: rest => decimal? (Nat.pow 2 32 - 1) rest
  | _ => some cs

def port? (cs : List Char) : Option (List Char) := do decimal? 65535 (← after? ':' cs)

def isSocketAddress (s : String) : Bool :=
  let rest? := match s.toList with
    | '[' :: cs => do port? (← after? ']' (← zone? (← eightGroups? cs)))
    | cs => do port? (← fourOctets? cs)
  rest? = some []

example : isSocketAddress "0.0.0.0:9090" = true := by decide +kernel
example : isSocketAddress "[::1]:80" = true := by decide +kernel
example : isSocketAddress "localhost:80" = false := by decide +kernel

end GrantCache.Address
