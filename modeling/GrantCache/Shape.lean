import GrantCache.Json

/-!
# Shapes of values

What kind of value a reader of the cache takes. A value of another shape counts as unreadable.
-/

namespace GrantCache

inductive Shape where
  | anything
  | text
  | texts
  /-- An integer of the signed 64-bit range. -/
  | signed
  /-- An integer of the unsigned 32-bit range. -/
  | small
  | truth
deriving DecidableEq, Inhabited

/-- Whether a value is of a shape. A number with a fraction is no integer, even if it is whole. -/
def Shape.fits : Shape → Json → Bool
  | anything, _ => true
  | text, .str _ => true
  | texts, v => v.texts?.isSome
  | signed, v => v.signed?.isSome
  | small, .int n => 0 ≤ n ∧ n < Nat.pow 2 32
  | truth, .bool _ => true
  | _, _ => false

/-- Read a cached value: none stays none, and a value must be of the shape. -/
def Shape.read? (s : Shape) : Option Json → Option (Option Json)
  | none => some none
  | some v => if s.fits v then some (some v) else none

end GrantCache
