import GrantCache.Numeral

/-!
# Spans of time

Spans are written in the largest of the units s, ms, µs and ns that gives an integer part of at
least one, with the decimals that are needed and no more.
-/

namespace GrantCache

/-- A span of time in nanoseconds. -/
structure Span where
  nanos : Nat
deriving DecidableEq, Inhabited

namespace Span

def ofMillis (ms : Nat) : Span := ⟨ms * 1000000⟩

/-- The decimals of `part / 10 ^ places`, without trailing zeros. -/
def decimals (part places : Nat) : List Char :=
  let ds := Numeral.digits part
  let padded := List.replicate (places - ds.length) '0' ++ ds
  (padded.reverse.dropWhile (· = '0')).reverse

/-- A quantity of a unit of `10 ^ places` nanoseconds. -/
def inUnit (nanos places : Nat) (unit : String) : String :=
  let fraction := decimals (nanos % Nat.pow 10 places) places
  let point := if fraction.isEmpty then [] else '.' :: fraction
  String.ofList (Numeral.digits (nanos / Nat.pow 10 places) ++ point) ++ unit

def text (d : Span) : String :=
  if 1000000000 ≤ d.nanos then inUnit d.nanos 9 "s"
  else if 1000000 ≤ d.nanos then inUnit d.nanos 6 "ms"
  else if 1000 ≤ d.nanos then inUnit d.nanos 3 "µs"
  else inUnit d.nanos 0 "ns"

end Span

end GrantCache
