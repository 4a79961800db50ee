import GrantCache.Numeral
import GrantCache.Toml.Blank

/-!
# Texts of TOML

Four kinds of text: between double quotes, where a backslash escapes, and between single quotes,
where nothing does; and both of them between three quotes, over several lines. Every function here
gives the characters of the text and what follows it.
-/

namespace GrantCache.Toml

def coded? (digits : List Char) : Option Char := do
  let n ← digits.foldlM (fun n c => (Numeral.hexValue? c).map (16 * n + ·)) 0
  if n < 0xD800 ∨ (0xDFFF < n ∧ n < 0x110000) then some (Char.ofNat n) else none

def unescape? : Char → Option Char
  | 'b' => some '\x08'
  | 't' => some '\t'
  | 'n' => some '\n'
  | 'f' => some '\x0c'
  | 'r' => some '\r'
  | '"' => some '"'
  | '\\' => some '\\'
  | _ => none

/-- What follows a backslash: the character that is meant, and the rest. -/
def escape? : List Char → Option (Char × List Char)
  | 'u' :: a :: b :: c :: d :: rest => (coded? [a, b, c, d]).map (·, rest)
  | 'U' :: a :: b :: c :: d :: e :: f :: g :: h :: rest =>
    (coded? [a, b, c, d, e, f, g, h]).map (·, rest)
  | c :: rest => (unescape? c).map (·, rest)
  | [] => none

theorem length_escape? {cs rest : List Char} {c : Char} (h : escape? cs = some (c, rest)) :
    rest.length < cs.length := by
  unfold escape? at h
  split at h
  all_goals first
    | (obtain ⟨x, -, hx⟩ := Option.map_eq_some_iff.1 h
       obtain ⟨-, rfl⟩ := Prod.mk.inj hx
       simp only [List.length_cons]
       omega)
    | simp at h

-- The equation is used by `decreasing_by`, which the linter does not see.
set_option linter.unusedVariables false in
/-- A text after its opening double quote. -/
def basic? : List Char → Option (List Char × List Char)
  | [] => none
  | '"' :: rest => some ([], rest)
  | '\\' :: tail =>
    match h : escape? tail with
    | some (c, rest) => (basic? rest).map fun (text, after) => (c :: text, after)
    | none => none
  | c :: rest =>
    if isPlain c then (basic? rest).map fun (text, after) => (c :: text, after) else none
termination_by cs => cs.length
decreasing_by
  · have := length_escape? h
    simp only [List.length_cons]
    omega
  · simp

/-- A text after its opening single quote. -/
def literal? (cs : List Char) : Option (List Char × List Char) :=
  let inside (c : Char) : Bool := isPlain c && c ≠ '\''
  match cs.dropWhile inside with
  | '\'' :: rest => some (cs.takeWhile inside, rest)
  | _ => none

/-! ### Several lines -/

/-- Where in a text of several lines the reader stands. -/
inductive LineMode where
  | text
  /-- After a backslash that must be the last symbol of its line. -/
  | folding
  /-- In the blanks and line breaks that such a backslash takes away. -/
  | folded
deriving DecidableEq

/-- The closing quotes: up to two more of them before the last three belong to the text. -/
def closing (quote : Char) : List Char → List Char × List Char
  | a :: b :: rest =>
    if a = quote then
      if b = quote then ([quote, quote], rest) else ([quote], b :: rest)
    else ([], a :: b :: rest)
  | [a] => if a = quote then ([quote], []) else ([], [a])
  | [] => ([], [])

-- The equations are used by `decreasing_by`, which the linter does not see.
set_option linter.unusedVariables false in
/-- A text of several lines after its opening double quotes. -/
def lines? : LineMode → List Char → Option (List Char × List Char)
  | .folding, '\n' :: rest => lines? .folded rest
  | .folding, '\r' :: '\n' :: rest => lines? .folded rest
  | .folding, c :: rest => if isBlank c then lines? .folding rest else none
  | .folded, '\n' :: rest => lines? .folded rest
  | .folded, '\r' :: '\n' :: rest => lines? .folded rest
  -- The first character that is no blank belongs to the text again.
  | .folded, c :: rest => if isBlank c then lines? .folded rest else lines? .text (c :: rest)
  | .text, '"' :: '"' :: '"' :: rest => some (closing '"' rest)
  | .text, '\n' :: rest => (lines? .text rest).map fun (text, after) => ('\n' :: text, after)
  | .text, '\r' :: '\n' :: rest =>
    (lines? .text rest).map fun (text, after) => ('\n' :: text, after)
  | .text, '\\' :: tail =>
    match h : escape? tail with
    | some (c, rest) => (lines? .text rest).map fun (text, after) => (c :: text, after)
    | none => lines? .folding tail
  | .text, c :: rest =>
    if isPlain c then (lines? .text rest).map fun (text, after) => (c :: text, after) else none
  | _, [] => none
termination_by mode cs => (cs.length, if mode = .folded then 1 else 0)
decreasing_by
  all_goals simp_wf
  all_goals first
    | (have shorter := length_escape? h
       omega)
    | omega

/-- A text of several lines after its opening single quotes. -/
def literalLines? : List Char → Option (List Char × List Char)
  | '\'' :: '\'' :: '\'' :: rest => some (closing '\'' rest)
  | '\n' :: rest => (literalLines? rest).map fun (text, after) => ('\n' :: text, after)
  | '\r' :: '\n' :: rest =>
    (literalLines? rest).map fun (text, after) => ('\n' :: text, after)
  | c :: rest =>
    if isPlain c then (literalLines? rest).map fun (text, after) => (c :: text, after) else none
  | [] => none

/-- A line break right after the opening quotes is no part of a text. -/
def skipBreak (cs : List Char) : List Char := (lineBreak? cs).getD cs

def text? : List Char → Option (List Char × List Char)
  | '"' :: '"' :: '"' :: rest => lines? .text (skipBreak rest)
  | '\'' :: '\'' :: '\'' :: rest => literalLines? (skipBreak rest)
  | '"' :: rest => basic? rest
  | '\'' :: rest => literal? rest
  | _ => none

end GrantCache.Toml
