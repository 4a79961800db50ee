import GrantCache.Binary64
import GrantCache.Catalog

/-!
# JSON values

The values that are cached, sent to a remote store and read from settings. A number is an integer
or a binary64 number, never both: a literal without fraction and exponent that fits one of the two
64-bit ranges is an integer (`Json.IsInteger`), every other one is a binary64 number. The fields of
an object are a catalog, so an object has one order and no name twice.
-/

namespace GrantCache

/-- A JSON value. -/
inductive Json where
  | null
  | bool (b : Bool)
  | int (n : Int)
  | float (x : Binary64)
  | str (s : String)
  | arr (items : List Json)
  | obj (fields : List (String × Json))
deriving Inhabited

namespace Json

def minInteger : Int := -(Nat.pow 2 63)

def maxSigned : Int := Nat.pow 2 63 - 1

def maxUnsigned : Int := Nat.pow 2 64 - 1

/-- Integers of the signed or of the unsigned 64-bit range. -/
def IsInteger (n : Int) : Prop := minInteger ≤ n ∧ n ≤ maxUnsigned

instance (n : Int) : Decidable (IsInteger n) := inferInstanceAs (Decidable (_ ∧ _))

/-- An object with the given fields; of two fields of one name the later stays. -/
def object (fields : List (String × Json)) : Json := .obj (Catalog.ofList fields)

/-- A list of texts as a value. -/
def texts (items : List String) : Json := .arr (items.map .str)

def field? (name : String) : Json → Option Json
  | .obj fields => Catalog.find? name fields
  | _ => none

/-- The integer within the signed 64-bit range that a value is. -/
def signed? : Json → Option Int
  | .int n => if minInteger ≤ n ∧ n ≤ maxSigned then some n else none
  | _ => none

/-- The texts of a list that holds texts only. -/
def texts? : Json → Option (List String)
  | .arr items => items.mapM fun
    | .str s => some s
    | _ => none
  | _ => none

/-- A list of texts that was made a value reads back as it was. -/
@[simp] theorem texts?_texts (items : List String) : (texts items).texts? = some items := by
  simp only [texts, texts?]
  induction items with
  | nil => rfl
  | cons s rest ih => simp [List.mapM_cons, ih]

/-! ### Equality -/

mutual

def decEq : (a b : Json) → Decidable (a = b)
  | .null, b =>
    match b with
    | .null => isTrue rfl
    | .bool _ | .int _ | .float _ | .str _ | .arr _ | .obj _ => isFalse nofun
  | .bool x, b =>
    match b with
    | .bool y => decidable_of_iff (x = y) (by simp)
    | .null | .int _ | .float _ | .str _ | .arr _ | .obj _ => isFalse nofun
  | .int x, b =>
    match b with
    | .int y => decidable_of_iff (x = y) (by simp)
    | .null | .bool _ | .float _ | .str _ | .arr _ | .obj _ => isFalse nofun
  | .float x, b =>
    match b with
    | .float y => decidable_of_iff (x = y) (by simp)
    | .null | .bool _ | .int _ | .str _ | .arr _ | .obj _ => isFalse nofun
  | .str x, b =>
    match b with
    | .str y => decidable_of_iff (x = y) (by simp)
    | .null | .bool _ | .int _ | .float _ | .arr _ | .obj _ => isFalse nofun
  | .arr xs, b =>
    match b with
    | .arr ys =>
      match decEqItems xs ys with
      | isTrue h => isTrue (h ▸ rfl)
      | isFalse h => isFalse fun e => h (Json.arr.inj e)
    | .null | .bool _ | .int _ | .float _ | .str _ | .obj _ => isFalse nofun
  | .obj xs, b =>
    match b with
    | .obj ys =>
      match decEqFields xs ys with
      | isTrue h => isTrue (h ▸ rfl)
      | isFalse h => isFalse fun e => h (Json.obj.inj e)
    | .null | .bool _ | .int _ | .float _ | .str _ | .arr _ => isFalse nofun

def decEqItems : (xs ys : List Json) → Decidable (xs = ys)
  | [], [] => isTrue rfl
  | [], _ :: _ => isFalse nofun
  | _ :: _, [] => isFalse nofun
  | x :: xs, y :: ys =>
    match decEq x y, decEqItems xs ys with
    | isTrue h, isTrue h' => isTrue (h ▸ h' ▸ rfl)
    | isFalse h, _ => isFalse fun e => h (List.cons.inj e).1
    | _, isFalse h => isFalse fun e => h (List.cons.inj e).2

def decEqFields : (xs ys : List (String × Json)) → Decidable (xs = ys)
  | [], [] => isTrue rfl
  | [], _ :: _ => isFalse nofun
  | _ :: _, [] => isFalse nofun
  | (k, x) :: xs, (l, y) :: ys =>
    if hk : k = l then
      match decEq x y, decEqFields xs ys with
      | isTrue h, isTrue h' => isTrue (hk ▸ h ▸ h' ▸ rfl)
      | isFalse h, _ => isFalse fun e => h (Prod.mk.inj (List.cons.inj e).1).2
      | _, isFalse h => isFalse fun e => h (List.cons.inj e).2
    else isFalse fun e => hk (Prod.mk.inj (List.cons.inj e).1).1

end

instance : DecidableEq Json := decEq

end Json

end GrantCache
