import GrantCache.Json
import GrantCache.Binary64.Decimal

/-!
# Reading JSON text

Reading has two stages, each a machine that takes one symbol at a time, so both end by recursion
on their input: `lex` cuts characters into tokens, and `Builder` puts tokens together, with the
containers that are still open on a stack. The grammar is strict: no trailing text, no raw control
character in a text, no half of a surrogate pair; at most 127 containers may be open at a time. Of
two fields of one name the later stays.
-/

namespace GrantCache.Json

/-! ### Tokens -/

/-- The symbols of JSON text. A literal is a complete value other than a text. -/
inductive Token where
  | openArray
  | closeArray
  | openObject
  | closeObject
  | comma
  | colon
  | literal (v : Json)
  | text (s : String)

/-! ### Numbers -/

/-- Digits read so far: their value as long as it fits 64 bits, and the power of ten by which that
value is to be scaled. -/
structure Digits where
  value : Nat
  exponent : Int
  full : Bool

/-- Take a digit before the point. Once the value would not fit, every further digit counts as a
zero. -/
def Digits.pushWhole (d : Digits) (c : Char) : Digits :=
  let next := 10 * d.value + Numeral.digitValue c
  if d.full || next > Nat.pow 2 64 - 1 then ⟨d.value, d.exponent + 1, true⟩ else ⟨next, d.exponent, false⟩

/-- Take a digit after the point. Once the value would not fit, every further digit is dropped. -/
def Digits.pushFraction (d : Digits) (c : Char) : Digits :=
  let next := 10 * d.value + Numeral.digitValue c
  if d.full || next > Nat.pow 2 64 - 1 then ⟨d.value, d.exponent, true⟩
  else ⟨next, d.exponent - 1, false⟩

def exponent? (cs : List Char) : Option Int := Numeral.readInt? cs

/-- A number: a literal without fraction and exponent that fits a 64-bit range is an integer, every
other one a binary64 number. -/
def number? (cs : List Char) : Option Json := do
  let (negative, body) := match cs with
    | '-' :: rest => (true, rest)
    | _ => (false, cs)
  let whole := body.takeWhile Numeral.isDigit
  let rest := body.dropWhile Numeral.isDigit
  guard (!whole.isEmpty && (whole.length = 1 || whole.head? ≠ some '0'))
  let d := whole.foldl Digits.pushWhole ⟨0, 0, false⟩
  let scaled (d : Digits) (e : Int) : Option Json :=
    (Binary64.ofScaled? negative d.value (d.exponent + e)).map .float
  match rest with
  | [] =>
    let n := Numeral.value whole
    if negative then
      -- Minus zero is no integer.
      if 0 < n ∧ n ≤ Nat.pow 2 63 then some (.int (-(n : Int))) else scaled d 0
    else if n ≤ Nat.pow 2 64 - 1 then some (.int n) else scaled d 0
  | '.' :: tail =>
    let fraction := tail.takeWhile Numeral.isDigit
    guard (!fraction.isEmpty)
    -- A digit after the point may still fit when those before it did not.
    let d := fraction.foldl Digits.pushFraction { d with full := false }
    match tail.dropWhile Numeral.isDigit with
    | [] => scaled d 0
    | e :: power =>
      guard (e = 'e' || e = 'E')
      scaled d (← exponent? power)
  | e :: power =>
    guard (e = 'e' || e = 'E')
    scaled d (← exponent? power)

def literal? (cs : List Char) : Option Json :=
  if cs = ['n', 'u', 'l', 'l'] then some .null
  else if cs = ['t', 'r', 'u', 'e'] then some (.bool true)
  else if cs = ['f', 'a', 'l', 's', 'e'] then some (.bool false)
  else number? cs

/-! ### From characters to tokens -/

/-- Where in a token the lexer stands. Characters already read come last first. -/
inductive Scan where
  | between
  | literal (rev : List Char)
  | text (rev : List Char)
  /-- After a backslash in a text. -/
  | escape (rev : List Char)
  /-- In the four digits of an escaped code; `high` is the first half of a pair read before. -/
  | code (rev : List Char) (high : Option Nat) (left : Nat) (value : Nat)
  /-- After the first half of a pair: a backslash must follow. -/
  | half (rev : List Char) (high : Nat)
  /-- After that backslash: a `u` must follow. -/
  | halfEscape (rev : List Char) (high : Nat)

def isBlank (c : Char) : Bool := c = ' ' || c = '\n' || c = '\r' || c = '\t'

def isBare (c : Char) : Bool :=
  Numeral.isDigit c || (97 ≤ c.toNat && c.toNat ≤ 122) || (65 ≤ c.toNat && c.toNat ≤ 90) ||
    c = '-' || c = '+' || c = '.'

def punctuation? : Char → Option Token
  | '[' => some .openArray
  | ']' => some .closeArray
  | '\x7b' => some .openObject
  | '\x7d' => some .closeObject
  | ',' => some .comma
  | ':' => some .colon
  | _ => none

def scanBetween (c : Char) : Option (Scan × List Token) :=
  if isBlank c then some (.between, [])
  else if c = '"' then some (.text [], [])
  else if isBare c then some (.literal [c], [])
  else (punctuation? c).map fun t => (.between, [t])

def unescape? : Char → Option Char
  | '"' => some '"'
  | '\\' => some '\\'
  | '/' => some '/'
  | 'b' => some '\x08'
  | 'f' => some '\x0c'
  | 'n' => some '\n'
  | 'r' => some '\r'
  | 't' => some '\t'
  | _ => none

/-- A complete escaped code: the first half of a pair waits for the second, a second half needs a
first. -/
def endCode (rev : List Char) (high : Option Nat) (n : Nat) : Option Scan :=
  match high with
  | some h =>
    if 0xDC00 ≤ n ∧ n ≤ 0xDFFF then
      some (.text (Char.ofNat (0x10000 + (h - 0xD800) * 0x400 + (n - 0xDC00)) :: rev))
    else none
  | none =>
    if 0xD800 ≤ n ∧ n ≤ 0xDBFF then some (.half rev n)
    else if 0xDC00 ≤ n ∧ n ≤ 0xDFFF then none
    else some (.text (Char.ofNat n :: rev))

/-- Take one character; the tokens that it completes come with the new state. -/
def Scan.step (c : Char) : Scan → Option (Scan × List Token)
  | .between => scanBetween c
  | .literal rev =>
    if isBare c then some (.literal (c :: rev), [])
    else do
      let v ← literal? rev.reverse
      -- The character that ends a literal is the first of what follows.
      let (next, tokens) ← scanBetween c
      some (next, .literal v :: tokens)
  | .text rev =>
    if c = '"' then some (.between, [.text (String.ofList rev.reverse)])
    else if c = '\\' then some (.escape rev, [])
    else if c.toNat < 0x20 then none
    else some (.text (c :: rev), [])
  | .escape rev =>
    if c = 'u' then some (.code rev none 3 0, [])
    else (unescape? c).map fun c => (.text (c :: rev), [])
  | .code rev high left value => do
    let d ← Numeral.hexValue? c
    match left with
    | 0 => (endCode rev high (16 * value + d)).map (·, [])
    | n + 1 => some (.code rev high n (16 * value + d), [])
  | .half rev high => if c = '\\' then some (.halfEscape rev high, []) else none
  | .halfEscape rev high => if c = 'u' then some (.code rev (some high) 3 0, []) else none

def lex : Scan → List Char → Option (List Token)
  | .between, [] => some []
  | .literal rev, [] => (literal? rev.reverse).map fun v => [.literal v]
  -- The text ends within a token.
  | _, [] => none
  | s, c :: rest => do
    let (next, tokens) ← s.step c
    let more ← lex next rest
    some (tokens ++ more)

/-! ### From tokens to a value -/

/-- A container that waits for the value of its next place. -/
inductive Frame where
  | array (rev : List Json)
  | object (fields : Catalog Json) (name : String)

/-- What may come next. -/
inductive Mode where
  | value
  /-- A value, or the end of the array that was just opened. -/
  | firstItem
  /-- A comma or the end, after an item. -/
  | afterItem (rev : List Json)
  /-- A name, or the end of the object that was just opened. -/
  | firstName
  | name (fields : Catalog Json)
  /-- The colon after a name. -/
  | colon (fields : Catalog Json) (name : String)
  /-- A comma or the end, after a field. -/
  | afterField (fields : Catalog Json)
  /-- Nothing: the value is complete. -/
  | done (v : Json)

/-- What may come next, and the open containers, the innermost first. -/
structure Builder where
  mode : Mode
  stack : List Frame

namespace Builder

/-- No more than this many containers may wait around an open one. -/
def maxWaiting : Nat := 126

/-- Put a complete value where it belongs. -/
def give (v : Json) : List Frame → Builder
  | [] => ⟨.done v, []⟩
  | .array rev :: stack => ⟨.afterItem (v :: rev), stack⟩
  | .object fields name :: stack => ⟨.afterField (fields.insert name v), stack⟩

def start (stack : List Frame) : Token → Option Builder
  | .literal v => some (give v stack)
  | .text s => some (give (.str s) stack)
  | .openArray => if stack.length ≤ maxWaiting then some ⟨.firstItem, stack⟩ else none
  | .openObject => if stack.length ≤ maxWaiting then some ⟨.firstName, stack⟩ else none
  | _ => none

def step (b : Builder) (t : Token) : Option Builder :=
  match b.mode, t with
  | .value, t => start b.stack t
  | .firstItem, .closeArray => some (give (.arr []) b.stack)
  | .firstItem, t => start (.array [] :: b.stack) t
  | .afterItem rev, .comma => some ⟨.value, .array rev :: b.stack⟩
  | .afterItem rev, .closeArray => some (give (.arr rev.reverse) b.stack)
  | .firstName, .closeObject => some (give (.obj []) b.stack)
  | .firstName, .text s => some ⟨.colon [] s, b.stack⟩
  | .name fields, .text s => some ⟨.colon fields s, b.stack⟩
  | .colon fields name, .colon => some ⟨.value, .object fields name :: b.stack⟩
  | .afterField fields, .comma => some ⟨.name fields, b.stack⟩
  | .afterField fields, .closeObject => some (give (.obj fields) b.stack)
  | _, _ => none

def run : Builder → List Token → Option Builder
  | b, [] => some b
  | b, t :: rest => do run (← b.step t) rest

end Builder

def ofTokens? (tokens : List Token) : Option Json := do
  match ← Builder.run ⟨.value, []⟩ tokens with
  | ⟨.done v, _⟩ => some v
  | _ => none

def ofChars? (cs : List Char) : Option Json := (lex .between cs).bind ofTokens?

/-- The value that JSON text stands for. -/
def parse? (s : String) : Option Json := ofChars? s.toList

end GrantCache.Json
